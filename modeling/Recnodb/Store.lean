import Mathlib.Data.List.Chain
import Recnodb.Appending
import Recnodb.ChainVisits
import Recnodb.Creation
import Recnodb.Extents
import Recnodb.ExtensionFrame

/-!
# The store over whole runs

A file as it is made, and then any sequence of appends, of appends that are linked to
the end of the chain, and of attempts to link behind a block that has a child. The
blocks placed so far are kept as a history of extents. They tile the file in whole
chunks, those that were linked form the chain from offset zero in the order they were
linked, and the root keeps the fields it was made with.
-/

namespace Recnodb

open Interaction Octets Program Extents

/-- A block that was appended, and whether it was linked. -/
structure Placing where
  extent : Extent
  linked : Bool
deriving DecidableEq

/-- The extent of a block location. -/
def BlockLoc.extent (loc : BlockLoc) : Extent := ⟨loc.offset.toNat, loc.size.toNat⟩

/-- The allocated blocks in order: the one the file is made with, and those appended. -/
def allocated (chunkSize : UInt32) (history : List Placing) : List Extent :=
  ⟨0, chunkSize.toNat⟩ :: history.map Placing.extent

/-- The offsets of the root and of the blocks linked, in that order. -/
def chained (history : List Placing) : List Nat :=
  0 :: (history.filter Placing.linked).map fun placing => placing.extent.start

/-- The link of a block is the offset and the block size of the next one. -/
def NamesBlock (file : List UInt8) (one next : Nat) : Prop :=
  (headAt file one).nextBlock = ⟨next, (headAt file next).blockSize.toNat⟩

/-- The header of the file. -/
def rootHead (file : List UInt8) : RndHeadFile := RndHeadFile.ofBytes (slice file 0 sizeofHeadFile)

/-- What holds of the file behind a history. -/
structure StoreHolds (chunkSize recSize : UInt32) (history : List Placing) (file : List UInt8) :
    Prop where
  whole : chunkSize.toNat ∣ file.length
  tiles : Tiles 0 (allocated chunkSize history) file.length
  starts : ∀ extent ∈ allocated chunkSize history, chunkSize.toNat ∣ extent.start
  sizes : ∀ extent ∈ allocated chunkSize history, 0 < extent.size ∧ chunkSize.toNat ∣ extent.size ∧
    (headAt file extent.start).blockSize.toNat = extent.size
  data : ∀ extent ∈ allocated chunkSize history,
    (headAt file extent.start).bytesToData.toNat ≤ sizeofHeadFile
  chain : IsChain file (chained history)
  once : (chained history).Nodup
  links : (chained history).IsChain (NamesBlock file)
  root : (rootHead file).thead.recSize = recSize ∧ (rootHead file).fhead = ⟨rndb, chunkSize⟩

/-- A data or generic block of whole chunks. -/
structure RndBlockDef.Chunked (bdef : RndBlockDef) (chunkSize : UInt32) : Prop where
  short : bdef.Short
  some : 0 < bdef.blockSize.toNat
  whole : chunkSize.toNat ∣ bdef.blockSize.toNat

/-- An append, the search for the last link from offset zero, and the link to it. Delivers the
last code, and the definition that the append delivered. -/
def appendAndLink (fuel : Nat) (handle : Rndh) (bdef : RndBlockDef) :
    Prog (RndError × RndBlockDef) := do
  let (rval, bdef) ← blocksAppendBlock handle bdef
  if rval ≠ .success then pure (rval, bdef)
  else
    let (rval, found) ← chainsLastLink fuel 0
    match found with
    | none => pure (rval, bdef)
    | some (_, offset) =>
      let rval ← chainsAddLink offset bdef.newBlock
      pure (rval, bdef)

/-- The runs of the store: sequences of steps on which no file operation fails, and the history of
the blocks they placed. -/
inductive StoreRun (platform : Platform) (handle : Rndh) (chunkSize : UInt32) (start : World) :
    List Placing → World → Prop where
  | start : StoreRun platform handle chunkSize start [] start
  | append {history : List Placing} {before after : World} {bdef placed : RndBlockDef}
      {rval : RndError} (earlier : StoreRun platform handle chunkSize start history before)
      (chunked : bdef.Chunked chunkSize)
      (completed : run (posix platform) (blocksAppendBlock handle bdef) before =
        (.ok (rval, placed), after))
      (calm : after.failures = before.failures) :
      StoreRun platform handle chunkSize start (history ++ [⟨placed.newBlock.extent, false⟩]) after
  | appendLinked {history : List Placing} {before after : World} {bdef placed : RndBlockDef}
      {rval : RndError} {fuel : Nat}
      (earlier : StoreRun platform handle chunkSize start history before)
      (chunked : bdef.Chunked chunkSize)
      (completed : run (posix platform) (appendAndLink fuel handle bdef) before =
        (.ok (rval, placed), after))
      (calm : after.failures = before.failures) :
      StoreRun platform handle chunkSize start (history ++ [⟨placed.newBlock.extent, true⟩]) after
  | orphan {history : List Placing} {before after : World} {parent : Extent} {newLink : BlockLoc}
      {rval : RndError} (earlier : StoreRun platform handle chunkSize start history before)
      (among : parent ∈ allocated chunkSize history)
      (child : (headAt before.file parent.start).nextBlock.offset ≠ 0)
      (completed : run (posix platform) (chainsAddLink parent.start newLink) before =
        (.ok rval, after))
      (calm : after.failures = before.failures) :
      StoreRun platform handle chunkSize start history after

/-- What the next step of a run answers: a link behind a block with a child is refused, and the
other steps succeed. -/
structure StoreAnswers (platform : Platform) (handle : Rndh) (chunkSize : UInt32)
    (history : List Placing) (world : World) : Prop where
  refuses : ∀ (parent : Extent) (newLink : BlockLoc), parent ∈ allocated chunkSize history →
    (headAt world.file parent.start).nextBlock.offset ≠ 0 →
    (run (posix platform) (chainsAddLink parent.start newLink) world).2.failures = world.failures →
    ∃ after, run (posix platform) (chainsAddLink parent.start newLink) world =
      (.ok .attemptToOrphanBlock, after) ∧ after.file = world.file
  appends : ∀ bdef : RndBlockDef, bdef.Chunked chunkSize →
    (run (posix platform) (blocksAppendBlock handle bdef) world).2.failures = world.failures →
    ∃ placed after, run (posix platform) (blocksAppendBlock handle bdef) world =
      (.ok (.success, placed), after)
  links : ∀ (bdef : RndBlockDef) (fuel : Nat), bdef.Chunked chunkSize → history.length < fuel →
    (run (posix platform) (appendAndLink fuel handle bdef) world).2.failures = world.failures →
    ∃ placed after, run (posix platform) (appendAndLink fuel handle bdef) world =
      (.ok (.success, placed), after)

/-! ## Histories -/

section Histories

variable {chunkSize : UInt32} {history : List Placing} {extent : Extent}

/-- One block more. -/
theorem allocated_concat {linked : Bool} :
    allocated chunkSize (history ++ [⟨extent, linked⟩]) = allocated chunkSize history ++ [extent] :=
      by
  simp [allocated]

/-- A block that is not linked is not on the chain. -/
theorem chained_unlinked : chained (history ++ [⟨extent, false⟩]) = chained history := by
  simp [chained]

/-- A linked block is the last one of the chain. -/
theorem chained_linked : chained (history ++ [⟨extent, true⟩]) =
    chained history ++ [extent.start] := by
  simp [chained]

/-- The chain goes through allocated blocks in the order they were placed. -/
theorem chained_sublist :
    (chained history).Sublist ((allocated chunkSize history).map Extent.start) := by
  have linked := (List.filter_sublist (p := Placing.linked) (l := history)).map
    fun placing => placing.extent.start
  simpa [chained, allocated, Function.comp_def] using linked

/-- A block of the chain is an allocated block. -/
theorem allocated_of_chained {offset : Nat} (among : offset ∈ chained history) :
    ∃ extent ∈ allocated chunkSize history, extent.start = offset :=
  List.mem_map.mp (chained_sublist.subset among)

/-- The chain has at most one block more than were added. -/
theorem chained_length : (chained history).length ≤ history.length + 1 := by
  have shorter := (@chained_sublist 0 history).length_le
  simpa [allocated] using shorter

end Histories

/-! ## A link behind the end of a chain -/

section Ends

variable {file after : List UInt8} {last : Nat} {child : BlockLoc}

/-- Only the last fields of a file header count for those of the root. -/
theorem rootHead_fields (same : slice after 56 16 = slice file 56 16) :
    (rootHead after).thead = (rootHead file).thead ∧
      (rootHead after).fhead = (rootHead file).fhead := by
  have field (bytes : List UInt8) (start width : Nat) (fits : start + width ≤ 16) :
      slice (slice bytes 0 sizeofHeadFile) (56 + start) width =
        slice (slice bytes 56 16) start width := by
    have header : sizeofHeadFile = 72 := rfl
    rw [slice_slice _ _ _ _ _ (by omega), slice_slice _ _ _ _ _ fits, Nat.zero_add]
  have table (bytes : List UInt8) : (rootHead bytes).thead =
      InfoTable.ofBytes (slice (slice bytes 56 16) 0 8) :=
    congrArg InfoTable.ofBytes (field bytes 0 8 (by decide))
  have last (bytes : List UInt8) : (rootHead bytes).fhead =
      InfoFile.ofBytes (slice (slice bytes 56 16) 8 8) :=
    congrArg InfoFile.ofBytes (field bytes 8 8 (by decide))
  rw [table, table, last, last, same]
  exact ⟨rfl, rfl⟩

/-- A link behind the root, or to a block behind the header of the file, leaves the fields of the
root. -/
theorem rootHead_linked (long : 72 ≤ file.length) (behindRoot : last = 0 ∨ 72 ≤ last) :
    (rootHead (linked file last child [])).thead = (rootHead file).thead ∧
      (rootHead (linked file last child [])).fhead = (rootHead file).fhead := by
  apply rootHead_fields
  rw [linked, List.append_nil, slice_patch_disjoint (by omega)]
  rw [InfoBlock.toBytes_length]
  omega

/-- A link changes no header but that of the last block, and there the link only. -/
theorem headAt_linked_end (fits : child.Fits) {offset : Nat} (inside : offset + 32 ≤ file.length)
    (apart : offset ≠ last → offset + 32 ≤ last ∨ last + 32 ≤ offset) :
    headAt (linked file last child []) offset =
      if offset = last then { headAt file offset with nextBlock := child } else headAt file
        offset := by
  split
  · rename_i same
    rw [same, headAt_linked fits]
  · rename_i different
    exact headAt_linked_other inside (apart different)

/-- Only the first block of a chain may stand at offset zero. -/
theorem IsChain.later_nonzero {offset : Nat} {rest : List Nat}
    (chain : IsChain file (offset :: rest)) :
    ∀ next ∈ rest, next ≠ 0 := by
  induction rest generalizing offset with
  | nil => exact fun next among => absurd among List.not_mem_nil
  | cons second rest ih =>
    intro next among
    rcases List.mem_cons.mp among with rfl | later
    · exact chain.2.1
    · exact ih chain.tail next later

/-- A chain of links that name their blocks goes on with the new block, if the last header gets its
link and the other ones stay. -/
theorem names_linked {front : List Nat} {new : Nat} (size : Nat)
    (chain : IsChain file (front ++ [last]))
    (names : (front ++ [last]).IsChain (NamesBlock file))
    (heads : ∀ offset ∈ front ++ [last], headAt after offset =
      if offset = last then { headAt file offset with nextBlock := ⟨new, size⟩ }
      else headAt file offset)
    (newSize : (headAt after new).blockSize.toNat = size) :
    (front ++ [last] ++ [new]).IsChain (NamesBlock after) := by
  apply List.IsChain.append
  · apply names.imp_of_mem_tail_imp
    intro one next oneAmong nextAmong named
    have nonzero : next ≠ 0 := by
      cases front with
      | nil => exact absurd nextAmong List.not_mem_nil
      | cons first rest => exact chain.later_nonzero next nextAmong
    -- the block that names another one is not the last
    have unlinked : one ≠ last := by
      rintro rfl
      have none := chain.at_last.2
      rw [NamesBlock] at named
      rw [named] at none
      exact nonzero (Int.natCast_eq_zero.mp none)
    have sizes : (headAt after next).blockSize = (headAt file next).blockSize := by
      rw [heads next (List.mem_of_mem_tail nextAmong)]
      split <;> rfl
    rw [NamesBlock, heads one oneAmong, if_neg unlinked, sizes]
    exact named
  · exact List.isChain_singleton _
  · intro one oneLast next nextFirst
    obtain rfl : last = one := by simpa using oneLast
    obtain rfl : new = next := by simpa using nextFirst
    rw [NamesBlock, heads last (List.mem_append_right _ (List.mem_singleton_self _)), if_pos rfl,
      newSize]

end Ends

/-! ## One step -/

section Steps

variable {chunkSize recSize : UInt32} {history : List Placing} {file : List UInt8}
variable {bdef : RndBlockDef}

/-- An allocated block holds a file header and ends inside the file. -/
theorem StoreHolds.inside (holds : StoreHolds chunkSize recSize history file)
    (large : sizeofHeadFile ≤ chunkSize.toNat) {extent : Extent}
    (among : extent ∈ allocated chunkSize history) :
    72 ≤ extent.size ∧ extent.start + extent.size ≤ file.length := by
  obtain ⟨some, whole, -⟩ := holds.sizes extent among
  exact ⟨Nat.le_trans large (Nat.le_of_dvd some whole), (holds.tiles.within among).2⟩

/-- The stop of an allocated block, by its header. -/
theorem StoreHolds.blockStop (holds : StoreHolds chunkSize recSize history file)
    (large : sizeofHeadFile ≤ chunkSize.toNat) {extent : Extent}
    (among : extent ∈ allocated chunkSize history) :
    blockStop file extent.start = extent.stop := by
  have long := (holds.inside large among).1
  rw [Recnodb.blockStop, (holds.sizes extent among).2.2, Extent.stop]
  exact congrArg _ (Nat.max_eq_right (Nat.le_trans (by decide) long))

/-- Allocated blocks do not meet, by their headers. -/
theorem StoreHolds.apart (holds : StoreHolds chunkSize recSize history file)
    (large : sizeofHeadFile ≤ chunkSize.toNat) :
    (allocated chunkSize history).Pairwise fun one other =>
      BlocksApart file one.start other.start := by
  apply holds.tiles.apart.imp_of_mem
  intro one other among _ before
  left
  rw [holds.blockStop large among]
  exact before

/-- The chain is one of disjoint blocks, each with room for a file header. -/
theorem StoreHolds.chainAt (holds : StoreHolds chunkSize recSize history file)
    (large : sizeofHeadFile ≤ chunkSize.toNat) (bounded : file.length ≤ offMax) :
    ChainAt file 0 (chained history) where
  chain := holds.chain
  head := rfl
  inside := by
    intro offset among
    obtain ⟨extent, there, rfl⟩ := allocated_of_chained among
    obtain ⟨long, inside⟩ := holds.inside large there
    have header : sizeofHeadFile = 72 := rfl
    omega
  apart := (List.pairwise_map.mpr (holds.apart large)).sublist chained_sublist
  bounded := bounded

/-- An appended block of whole chunks adds its size to the file. -/
theorem RndBlockDef.Chunked.appended_length (chunked : bdef.Chunked chunkSize)
    (large : sizeofHeadFile ≤ chunkSize.toNat) :
    (appended file bdef).length = file.length + bdef.blockSize.toNat := by
  have size := Nat.le_of_dvd chunked.some chunked.whole
  have header : sizeofHeadFile = 72 := rfl
  rw [Recnodb.appended_length, newHead_length bdef chunked.short.settable, chunked.short.headSize]
  omega

/-- An append keeps what holds of the store, and places a block at the end of the file. -/
theorem StoreHolds.append (holds : StoreHolds chunkSize recSize history file)
    (large : sizeofHeadFile ≤ chunkSize.toNat) (chunked : bdef.Chunked chunkSize) :
    StoreHolds chunkSize recSize
      (history ++ [⟨⟨file.length, bdef.blockSize.toNat⟩, false⟩]) (appended file bdef) := by
  have length := @RndBlockDef.Chunked.appended_length _ file _ chunked large
  have header : sizeofHeadFile = 72 := rfl
  have kept {extent : Extent} (among : extent ∈ allocated chunkSize history) :
      headAt (appended file bdef) extent.start = headAt file extent.start := by
    obtain ⟨long, inside⟩ := holds.inside large among
    exact headAt_kept (prefix_appended chunked.some) (by omega)
  have keptChain {offset : Nat} (among : offset ∈ chained history) :
      headAt (appended file bdef) offset = headAt file offset := by
    obtain ⟨extent, there, rfl⟩ := allocated_of_chained among
    exact kept there
  constructor
  · rw [length]
    exact Nat.dvd_add holds.whole chunked.whole
  · rw [allocated_concat, length]
    exact holds.tiles.concat _
  · rw [allocated_concat]
    intro extent among
    rcases List.mem_append.mp among with old | new
    · exact holds.starts extent old
    · rw [List.mem_singleton.mp new]
      exact holds.whole
  · rw [allocated_concat]
    intro extent among
    rcases List.mem_append.mp among with old | new
    · rw [kept old]
      exact holds.sizes extent old
    · rw [List.mem_singleton.mp new]
      refine ⟨chunked.some, chunked.whole, ?_⟩
      rw [headAt_appended]
      rfl
  · rw [allocated_concat]
    intro extent among
    rcases List.mem_append.mp among with old | new
    · rw [kept old]
      exact holds.data extent old
    · rw [List.mem_singleton.mp new, headAt_appended, newInfoBlock, chunked.short.headSize]
      decide
  · rw [chained_unlinked]
    exact holds.chain.kept (by omega) fun offset => keptChain
  · rw [chained_unlinked]
    exact holds.once
  · rw [chained_unlinked]
    apply holds.links.imp_of_mem_imp
    intro one next oneAmong nextAmong names
    rw [NamesBlock, keptChain oneAmong, keptChain nextAmong]
    exact names
  · have chunk : 72 ≤ file.length := by
      obtain ⟨long, inside⟩ := holds.inside large List.mem_cons_self
      exact Nat.le_trans long (Nat.le_trans (Nat.le_add_left _ _) inside)
    have same : slice (appended file bdef) 56 16 = slice file 56 16 := by
      apply slice_congr
      intro index _ below
      exact appended_below chunked.some (by omega)
    rw [(rootHead_fields same).1, (rootHead_fields same).2]
    exact holds.root

/-- Two allocated blocks have headers that do not meet. -/
theorem StoreHolds.headsApart (holds : StoreHolds chunkSize recSize history file)
    (large : sizeofHeadFile ≤ chunkSize.toNat) {one other : Extent}
    (oneAmong : one ∈ allocated chunkSize history) (otherAmong : other ∈ allocated chunkSize history)
    (different : one ≠ other) : one.start + 32 ≤ other.start ∨ other.start + 32 ≤ one.start := by
  have first := (holds.inside large oneAmong).1
  have second := (holds.inside large otherAmong).1
  rcases holds.tiles.disjoint oneAmong otherAmong different with before | behind
  · rw [Extent.stop] at before
    omega
  · rw [Extent.stop] at behind
    omega

/-- A link behind an allocated block leaves the other headers, and of that one all but the link. -/
theorem StoreHolds.headAt_link (holds : StoreHolds chunkSize recSize history file)
    (large : sizeofHeadFile ≤ chunkSize.toNat) {parent extent : Extent} {newBlock : BlockLoc}
    (fits : newBlock.Fits) (parentAmong : parent ∈ allocated chunkSize history)
    (among : extent ∈ allocated chunkSize history) :
    headAt (linked file parent.start newBlock []) extent.start =
      if extent.start = parent.start then { headAt file extent.start with nextBlock := newBlock }
      else headAt file extent.start := by
  obtain ⟨long, inside⟩ := holds.inside large among
  refine headAt_linked_end fits (by omega) fun different => ?_
  exact holds.headsApart large among parentAmong fun same => different (congrArg Extent.start same)

/-- The root stands at offset zero, and no other allocated block before its end. -/
theorem StoreHolds.behindRoot (holds : StoreHolds chunkSize recSize history file)
    (large : sizeofHeadFile ≤ chunkSize.toNat) {extent : Extent}
    (among : extent ∈ allocated chunkSize history) : extent.start = 0 ∨ 72 ≤ extent.start := by
  rcases List.mem_cons.mp among with rfl | later
  · exact .inl rfl
  · have root := (List.pairwise_cons.mp holds.tiles.apart).1 extent later
    rw [Extent.stop] at root
    exact .inr (Nat.le_trans large (Nat.le_trans (Nat.le_add_left _ _) root))

/-- The chain goes on to a block placed last that is linked behind its last one, as the new block
stands behind all others. -/
theorem StoreHolds.chain_linked {fresh : Extent} {before : List Nat} {last : Nat}
    (holds : StoreHolds chunkSize recSize (history ++ [⟨fresh, false⟩]) file)
    (large : sizeofHeadFile ≤ chunkSize.toNat) (bounded : file.length ≤ offMax)
    (childless : (headAt file fresh.start).nextBlock.offset = 0)
    (ends : chained history = before ++ [last]) (fits : BlockLoc.Fits ⟨fresh.start, fresh.size⟩) :
    ChainAt (linked file last ⟨fresh.start, fresh.size⟩ []) 0 (before ++ [last] ++ [fresh.start]) := by
  have header : sizeofHeadFile = 72 := rfl
  have atEnd : fresh ∈ allocated chunkSize (history ++ [⟨fresh, false⟩]) := by
    rw [allocated_concat]
    exact List.mem_append_right _ (List.mem_singleton_self _)
  obtain ⟨long, inside⟩ := holds.inside large atEnd
  have at_ := holds.chainAt large bounded
  rw [chained_unlinked, ends] at at_
  have placed := holds.apart large
  rw [allocated_concat] at placed
  have behind := (List.pairwise_append.mp placed).2.2
  have block : FreshBlock file (before ++ [last]) fresh.start := by
    refine ⟨childless, by omega, fun offset among => ?_⟩
    rw [← ends] at among
    obtain ⟨extent, there, rfl⟩ := allocated_of_chained among
    exact behind extent there fresh (List.mem_singleton_self _)
  have elsewhere : fresh.start ≠ 0 := by
    have apart : 0 + 32 ≤ fresh.start ∨ fresh.start + 32 ≤ 0 :=
      (behind ⟨0, chunkSize.toNat⟩ List.mem_cons_self fresh (List.mem_singleton_self _)).heads
    omega
  exact at_.linked block elsewhere fits

/-- A block placed last and not linked can be linked to the last block of the chain. -/
theorem StoreHolds.link {fresh : Extent} {before : List Nat} {last : Nat}
    (holds : StoreHolds chunkSize recSize (history ++ [⟨fresh, false⟩]) file)
    (large : sizeofHeadFile ≤ chunkSize.toNat) (bounded : file.length ≤ offMax)
    (childless : (headAt file fresh.start).nextBlock.offset = 0)
    (ends : chained history = before ++ [last]) :
    StoreHolds chunkSize recSize (history ++ [⟨fresh, true⟩])
      (linked file last ⟨fresh.start, fresh.size⟩ []) := by
  have header : sizeofHeadFile = 72 := rfl
  have same : allocated chunkSize (history ++ [⟨fresh, true⟩]) =
      allocated chunkSize (history ++ [⟨fresh, false⟩]) :=
    allocated_concat.trans allocated_concat.symm
  have atEnd : fresh ∈ allocated chunkSize (history ++ [⟨fresh, false⟩]) := by
    rw [allocated_concat]
    exact List.mem_append_right _ (List.mem_singleton_self _)
  obtain ⟨long, inside⟩ := holds.inside large atEnd
  have fits : BlockLoc.Fits ⟨fresh.start, fresh.size⟩ :=
    BlockLoc.fits_of_lt (lt_of_le_offMax (by omega)) (lt_of_le_offMax (by omega))
  have grown := holds.chain_linked large bounded childless ends fits
  obtain ⟨parent, parentAmong, rfl⟩ :=
    @allocated_of_chained chunkSize (history ++ [⟨fresh, false⟩]) last (by
      rw [chained_unlinked, ends]
      exact List.mem_append_right _ (List.mem_singleton_self _))
  obtain ⟨parentLong, parentInside⟩ := holds.inside large parentAmong
  have length : (linked file parent.start ⟨fresh.start, fresh.size⟩ []).length = file.length :=
    linked_length (by rw [List.length_nil]; omega)
  have heads {extent : Extent} (among : extent ∈ allocated chunkSize (history ++ [⟨fresh, false⟩])) :=
    holds.headAt_link large fits parentAmong among
  constructor
  · rw [length]
    exact holds.whole
  · rw [same, length]
    exact holds.tiles
  · rw [same]
    exact holds.starts
  · rw [same]
    intro extent among
    rw [heads among]
    split <;> exact holds.sizes extent among
  · rw [same]
    intro extent among
    rw [heads among]
    split <;> exact holds.data extent among
  · rw [chained_linked, ends]
    exact grown.chain
  · rw [chained_linked, ends]
    exact grown.nodup
  · have chain := holds.chain
    have names := holds.links
    rw [chained_unlinked, ends] at chain names
    rw [chained_linked, ends]
    refine names_linked fresh.size chain names (fun offset among => ?_) ?_
    · rw [← ends] at among
      obtain ⟨extent, there, rfl⟩ := @allocated_of_chained chunkSize _ _ among
      apply heads
      rw [allocated_concat]
      exact List.mem_append_left _ there
    · rw [heads atEnd]
      split <;> exact (holds.sizes fresh atEnd).2.2
  · obtain ⟨chunk, rootInside⟩ := holds.inside large List.mem_cons_self
    obtain ⟨table, header⟩ := @rootHead_linked file parent.start ⟨fresh.start, fresh.size⟩
      (Nat.le_trans chunk (Nat.le_trans (Nat.le_add_left _ _) rootInside))
      (holds.behindRoot large parentAmong)
    rw [table, header]
    exact holds.root

end Steps

/-! ## Runs -/

section Runs

variable {platform : Platform} {memory : Nat → Nat → UInt8} {stream : Nat}
variable {chunkSize recSize : UInt32} {history : List Placing} {file : List UInt8}
variable {bdef : RndBlockDef}

/-- The `INFO_BLOCK` of a new file. -/
theorem headAt_fresh :
    headAt (freshFile chunkSize recSize) 0 = (freshHead chunkSize recSize).bhead := by
  rw [headAt, freshFile_front (by decide), RndHeadFile.toBytes,
    slice_field_first (InfoBlock.toBytes_length _)]
  exact InfoBlock.ofBytes_toBytes (BlockLoc.fits_of_lt (by decide) (by decide))

/-- A new file holds the store of its root alone. -/
theorem storeHolds_fresh (large : sizeofHeadFile ≤ chunkSize.toNat) :
    StoreHolds chunkSize recSize [] (freshFile chunkSize recSize) := by
  have length := freshFile_length large recSize
  have head := @headAt_fresh chunkSize recSize
  have positive : 0 < chunkSize.toNat := Nat.lt_of_lt_of_le (by decide) large
  constructor
  · rw [length]
  · rw [length]
    exact ⟨rfl, Nat.zero_add _⟩
  · intro extent among
    rw [List.mem_singleton.mp among]
    exact Nat.dvd_zero _
  · intro extent among
    rw [List.mem_singleton.mp among]
    refine ⟨positive, Nat.dvd_refl _, ?_⟩
    rw [head]
    rfl
  · intro extent among
    rw [List.mem_singleton.mp among, head]
    exact Nat.le_refl 72
  · refine ⟨?_, ?_⟩
    · rw [length]
      exact Nat.le_trans (by decide) large
    · rw [head]
      rfl
  · exact List.pairwise_singleton _ _
  · exact List.isChain_singleton _
  · rw [rootHead, freshFile_head]
    exact ⟨rfl, rfl⟩

/-- The chunk size of a handle of the store divides the end of its file. -/
theorem StoreHolds.aligned (holds : StoreHolds chunkSize recSize history file) :
    Aligned (freshHandle stream chunkSize recSize) file :=
  Nat.mod_eq_zero_of_dvd holds.whole

/-- The handle of a new file is valid. -/
theorem freshHandle_accepted (large : sizeofHeadFile ≤ chunkSize.toNat) :
    blocksValidateHandle (some (freshHandle stream chunkSize recSize)) = .success := by
  apply freshHandle_valid
  rintro rfl
  exact absurd large (by decide)

/-- An append at the end of the file of a store. -/
theorem append_holds (holds : StoreHolds chunkSize recSize history file)
    (large : sizeofHeadFile ≤ chunkSize.toNat) (chunked : bdef.Chunked chunkSize) :
    OnFile memory file (blocksAppendBlock (freshHandle stream chunkSize recSize) bdef)
      fun result after _ => result = (.success, bdef.placed file) ∧ after = appended file bdef := by
  apply OnFile.mono
    (blocksAppendBlock_aligned (freshHandle_accepted large) chunked.short.settable holds.aligned)
  rintro result after _ ⟨placed, grown, -⟩
  exact ⟨placed, grown⟩

/-- The last link from offset zero is the last block of the chain. -/
theorem lastLink_holds (holds : StoreHolds chunkSize recSize history file)
    (large : sizeofHeadFile ≤ chunkSize.toNat) {before : List Nat} {last : Nat}
    (ends : chained history = before ++ [last]) {fuel : Nat}
    (enough : (chained history).length ≤ fuel) :
    OnFile memory file (chainsLastLink fuel 0) fun result after _ => after = file ∧
      ∃ header, result = (RndError.success, some (header, (last : OffT))) := by
  have isLast : (chained history).getLast? = some last := by
    rw [ends, List.getLast?_concat]
  obtain ⟨extent, there, rfl⟩ := @allocated_of_chained chunkSize _ _ (by
    rw [ends]
    exact List.mem_append_right _ (List.mem_singleton_self _) : last ∈ chained history)
  refine OnFile.mono (@chainsLastLink_found memory file 0 extent.start _ holds.chain ?_ isLast
    (holds.data extent there) fuel enough) ?_
  · intro offset among
    obtain ⟨block, placed, rfl⟩ := allocated_of_chained among
    obtain ⟨long, inside⟩ := holds.inside large placed
    rw [show sizeofHeadFile = 72 from rfl]
    omega
  · rintro result after _ ⟨same, found⟩
    exact ⟨same, _, found⟩

/-- An append and a link place the block, and link it behind the chain. -/
theorem appendAndLink_holds (holds : StoreHolds chunkSize recSize history file)
    (large : sizeofHeadFile ≤ chunkSize.toNat) (chunked : bdef.Chunked chunkSize) {fuel : Nat}
    (enough : history.length < fuel) :
    OnFile memory file (appendAndLink fuel (freshHandle stream chunkSize recSize) bdef)
      fun result after _ => result = (.success, bdef.placed file) ∧
        (after.length ≤ offMax → StoreHolds chunkSize recSize
          (history ++ [⟨⟨file.length, bdef.blockSize.toNat⟩, true⟩]) after) := by
  have placed := holds.append large chunked
  have grown := placed.chain
  rw [chained_unlinked] at grown
  obtain ⟨before, last, ends⟩ := grown.split_last
  rw [ends] at grown
  obtain ⟨inside, childless⟩ := grown.at_last
  rw [appendAndLink]
  apply OnFile.bind (append_holds holds large chunked)
  rintro _ _ past ⟨rfl, rfl⟩
  dsimp only
  rw [if_neg (not_not_intro rfl)]
  have shorter := @chained_length history
  apply OnFile.bind (@lastLink_holds memory _ _ _ _ placed large before last
    (by rw [chained_unlinked]; exact ends) fuel (by rw [chained_unlinked]; omega))
  rintro _ _ past' ⟨rfl, header, rfl⟩
  dsimp only
  apply OnFile.bind (chainsAddLink_linked inside childless)
  rintro rval after _ ⟨same, rfl⟩
  refine OnFile.ret ⟨rfl, fun bounded => ?_⟩
  have length : after.length = (appended file bdef).length := by
    rw [same]
    exact linked_length inside
  rw [same]
  apply placed.link large (by omega) ?_ ends
  rw [headAt_appended]
  rfl

/-- A search for the last link that returns does so with any larger amount of fuel. -/
theorem chainsLastLink_more {fuel : Nat} {link : OffT} {world after : World}
    {result : RndError × Option (List UInt8 × OffT)}
    (returned : run (posix platform) (chainsLastLink fuel link) world = (.ok result, after))
    (more : Nat) : run (posix platform) (chainsLastLink (fuel + more) link) world =
      (.ok result, after) := by
  rw [chainsLastLink, chainsWalk] at returned ⊢
  obtain ⟨read, between, first, rest⟩ := run_bind_inv _ returned
  rw [run_bind_ok _ first]
  cases read with
  | none => exact rest
  | some bytes => exact run_iterate_more _ rest more

/-- More fuel changes nothing in a search that ends. -/
theorem appendAndLink_more {fuel : Nat} {handle : Rndh} {world after : World}
    {result : RndError × RndBlockDef}
    (returned : run (posix platform) (appendAndLink fuel handle bdef) world = (.ok result, after))
    (more : Nat) : run (posix platform) (appendAndLink (fuel + more) handle bdef) world =
      (.ok result, after) := by
  rw [appendAndLink] at returned ⊢
  obtain ⟨⟨rval, placed⟩, between, first, rest⟩ := run_bind_inv _ returned
  rw [run_bind_ok _ first]
  dsimp only at rest ⊢
  by_cases success : rval = .success
  · rw [if_neg (not_not_intro success)] at rest ⊢
    obtain ⟨found, sought, second, rest⟩ := run_bind_inv _ rest
    rw [run_bind_ok _ (chainsLastLink_more second more)]
    exact rest
  · rw [if_pos success] at rest ⊢
    exact rest

/-- Every run keeps what holds of the store, by induction on its steps. -/
theorem StoreRun.holds {start after : World} (large : sizeofHeadFile ≤ chunkSize.toNat)
    (fresh : start.file = freshFile chunkSize recSize) (bounded : start.file.length ≤ offMax)
    (steps : StoreRun platform (freshHandle stream chunkSize recSize) chunkSize start history after) :
    StoreHolds chunkSize recSize history after.file ∧ after.file.length ≤ offMax := by
  induction steps with
  | start =>
    rw [fresh]
    rw [fresh] at bounded
    exact ⟨storeHolds_fresh large, bounded⟩
  | @append history before after bdef placed rval earlier chunked completed calm ih =>
    have limit := run_bounded platform (blocksAppendBlock (freshHandle stream chunkSize recSize) bdef)
      before ih.2
    rw [completed] at limit
    obtain ⟨result, final, same, rfl, grown⟩ := calm_onFile
      (append_holds ih.1 large chunked) (by rw [completed]; exact calm)
    obtain ⟨answered, rfl⟩ := Prod.mk.inj (completed.symm.trans same)
    obtain ⟨-, rfl⟩ := Prod.mk.inj (Except.ok.inj answered)
    refine ⟨?_, limit⟩
    rw [grown]
    exact ih.1.append large chunked
  | @appendLinked history before after bdef placed rval fuel earlier chunked completed calm ih =>
    have limit := run_bounded platform
      (appendAndLink fuel (freshHandle stream chunkSize recSize) bdef) before ih.2
    rw [completed] at limit
    have longer := appendAndLink_more completed (history.length + 1)
    obtain ⟨result, final, same, rfl, grown⟩ := calm_onFile
      (appendAndLink_holds ih.1 large chunked
        (by omega : history.length < fuel + (history.length + 1)))
      (by rw [longer]; exact calm)
    obtain ⟨answered, rfl⟩ := Prod.mk.inj (longer.symm.trans same)
    obtain ⟨-, rfl⟩ := Prod.mk.inj (Except.ok.inj answered)
    exact ⟨grown limit, limit⟩
  | @orphan history before after parent newLink rval earlier among child completed calm ih =>
    have inside := ih.1.inside large among
    obtain ⟨result, final, same, kept, -⟩ := calm_onFile
      (@chainsAddLink_refused platform.memory before.file parent.start newLink
        (Nat.le_trans (by omega : parent.start + 32 ≤ parent.start + parent.size) inside.2) child)
      (by rw [completed]; exact calm)
    obtain ⟨-, rfl⟩ := Prod.mk.inj (completed.symm.trans same)
    rw [kept]
    exact ih

/-- A store answers every further step. -/
theorem StoreHolds.answers {world : World} (large : sizeofHeadFile ≤ chunkSize.toNat)
    (holds : StoreHolds chunkSize recSize history world.file) :
    StoreAnswers platform (freshHandle stream chunkSize recSize) chunkSize history world := by
  constructor
  · intro parent newLink among child calm
    have inside := holds.inside large among
    obtain ⟨rval, after, completed, kept, rfl⟩ := calm_onFile
      (@chainsAddLink_refused platform.memory world.file parent.start newLink
        (Nat.le_trans (by omega : parent.start + 32 ≤ parent.start + parent.size) inside.2) child)
          calm
    exact ⟨after, completed, kept⟩
  · intro bdef chunked calm
    obtain ⟨result, after, completed, rfl, -⟩ := calm_onFile (append_holds holds large chunked) calm
    exact ⟨_, after, completed⟩
  · intro bdef fuel chunked enough calm
    obtain ⟨result, after, completed, rfl, -⟩ :=
      calm_onFile (appendAndLink_holds holds large chunked enough) calm
    exact ⟨_, after, completed⟩

/-- The invariant of the store holds behind every run from a file made by
`blocks_file_open`. -/
theorem storeHolds_of_run {flags : UInt32} {handle : Rndh} {world start after : World}
    (create : rndCreate flags = true) (large : sizeofHeadFile ≤ chunkSize.toNat)
    (created : run (posix platform) (blocksFileOpen flags chunkSize recSize) world =
      (.ok (.success, handle), start))
    (steps : StoreRun platform handle chunkSize start history after) :
    StoreHolds chunkSize recSize history after.file ∧
      StoreAnswers platform handle chunkSize history after := by
  have positive : chunkSize > 0 :=
    UInt32.lt_iff_toNat_lt.mpr (Nat.lt_of_lt_of_le (by decide) large)
  obtain ⟨fresh, stream, rfl⟩ := blocksFileOpen_create create positive created
  have bounded : start.file.length ≤ offMax := by
    rw [fresh, freshFile_length large]
    exact Nat.le_trans (Nat.le_of_lt chunkSize.toNat_lt) (by decide)
  have holds := (steps.holds large fresh bounded).1
  exact ⟨holds, holds.answers large⟩

end Runs

/-! ## One block -/

/-- A data block of one chunk. -/
def chunkBlock : RndBlockDef := { blockType := .data, blockSize := 80 }

/-- The process behind the creation of a file of chunks of eighty bytes. -/
def newStore : World :=
  (run (posix soundPlatform) (blocksFileOpen rndCreateFlag 80 3) { disk := [] }).2

/-- The process behind an append that is linked. -/
def oneLinked : World :=
  (run (posix soundPlatform) (appendAndLink 2 (freshHandle 0 80 3) chunkBlock) newStore).2

theorem storeHolds_of_run_one :
    StoreHolds 80 3 [⟨⟨80, 80⟩, true⟩] oneLinked.file ∧
      StoreAnswers soundPlatform (freshHandle 0 80 3) 80 [⟨⟨80, 80⟩, true⟩] oneLinked := by
  have chunked : chunkBlock.Chunked 80 := ⟨.inl rfl, by decide, by decide⟩
  have linked : run (posix soundPlatform) (appendAndLink 2 (freshHandle 0 80 3) chunkBlock) newStore =
      (.ok (.success, { chunkBlock with newBlock := ⟨80, 80⟩ }), oneLinked) :=
    run_eq_of_value _ (by decide +kernel)
  have created : run (posix soundPlatform) (blocksFileOpen rndCreateFlag 80 3) { disk := [] } =
      (.ok (.success, freshHandle 0 80 3), newStore) := run_eq_of_value _ (by decide +kernel)
  apply storeHolds_of_run (by decide) (by decide) created
  exact .appendLinked .start chunked linked (by decide +kernel)

end Recnodb
