import Recnodb.Store

/-!
# Runs of appends and links

A file as it is made, and then any number of appends and links, whatever fails on the way without
losing what the stream holds. A block counts from the append that delivered it. An append touches
nothing before the old end of the file and a link nothing but the link of one header, so a property
of a block that does not depend on its link holds for good if it holds when the block is made.
-/

namespace Recnodb

open Interaction Octets Program Extents

/-- A data, generic or file block of whole chunks. -/
structure RndBlockDef.Allotted (bdef : RndBlockDef) (chunkSize : UInt32) : Prop where
  type : bdef.blockType = .data ∨ bdef.blockType = .generic ∨ bdef.blockType = .file
  some : 0 < bdef.blockSize.toNat
  whole : chunkSize.toNat ∣ bdef.blockSize.toNat

/-- The block that an append delivers, if it succeeds. -/
def delivered (rval : RndError) (placed : RndBlockDef) : List Extent :=
  if rval = .success then [placed.newBlock.extent] else []

/-- The runs that start with the making of a file and go on with appends, and with links to any
block, in any order and with any failing operations, as long as none loses what the stream holds;
and the blocks of the file. -/
inductive BlockRun (platform : Platform) (flags chunkSize recSize : UInt32) (handle : Rndh) :
    List Extent → World → Prop where
  | create {before after : World} (create : rndCreate flags = true)
      (completed : run (posix platform) (blocksFileOpen flags chunkSize recSize) before =
        (.ok (.success, handle), after)) :
      BlockRun platform flags chunkSize recSize handle [⟨0, chunkSize.toNat⟩] after
  | append {blocks : List Extent} {before after : World} {bdef placed : RndBlockDef}
      {rval : RndError} (earlier : BlockRun platform flags chunkSize recSize handle blocks before)
      (allotted : bdef.Allotted chunkSize)
      (completed : run (posix platform) (blocksAppendBlock handle bdef) before =
        (.ok (rval, placed), after))
      (lossless : Lossless platform (log (posix platform) (blocksAppendBlock handle bdef) before)) :
      BlockRun platform flags chunkSize recSize handle (blocks ++ delivered rval placed) after
  | link {blocks : List Extent} {before after : World} {parent : Extent} {newLink : BlockLoc}
      {rval : RndError} (earlier : BlockRun platform flags chunkSize recSize handle blocks before)
      (among : parent ∈ blocks)
      (completed : run (posix platform) (chainsAddLink parent.start newLink) before =
        (.ok rval, after))
      (lossless : Lossless platform
        (log (posix platform) (chainsAddLink parent.start newLink) before)) :
      BlockRun platform flags chunkSize recSize handle blocks after

/-- The bytes of a block are the same, but for those of its link. -/
def KeptAside (extent : Extent) (file after : List UInt8) : Prop :=
  ∀ index, extent.start ≤ index → index < extent.stop →
    index < extent.start + 16 ∨ extent.start + 32 ≤ index → after[index]? = file[index]?

/-- The blocks lie apart inside the file, each with room for the longest header. -/
structure Allotment (blocks : List Extent) (file : List UInt8) : Prop where
  large : sizeofHeadFile ≤ file.length
  within : ∀ extent ∈ blocks, sizeofHeadFile ≤ extent.size ∧ extent.stop ≤ file.length
  apart : blocks.Pairwise fun one other => one.stop ≤ other.start

/-! ## Single steps -/

section Steps

variable {platform : Platform} {world after : World} {handle : Rndh} {bdef : RndBlockDef}
variable {file : List UInt8}

/-- Without a chunk size no file block is delivered, and the old bytes stay. -/
theorem unpreparable_fails (refused : ¬ bdef.Preparable) :
    UnderFaults platform file (blocksAppendBlock handle bdef) fun result after _ =>
      result.1 ≠ .success ∧ KeepsFront bdef.blockSize.toNat file after := by
  have body : UnderFaults platform file (appendBlock handle bdef) fun result after _ =>
      result.1 ≠ .success ∧ KeepsFront bdef.blockSize.toNat file after := by
    refine UnderFaults.assert_bind fun _ => UnderFaults.primeHandle_bind
      (UnderFaults.bind measureEnd_faults ?_)
    rintro ⟨original, place⟩ measured _ ⟨same, -, -⟩
    have failed : RndError.systemError ≠ .success ∧ KeepsFront bdef.blockSize.toNat file file :=
      ⟨RndError.noConfusion, .refl _ _⟩
    rw [same]
    dsimp only
    by_cases lost : place = -1
    · rw [if_pos lost]
      refine UnderFaults.keepErrno_bind ?_
      split
      · exact UnderFaults.fseek_bind fun _ => UnderFaults.ret failed
      · exact UnderFaults.ret failed
    · rw [if_neg lost]
      refine UnderFaults.bind blocksExtendFile_faults ?_
      rintro rval grown _ ⟨⟨-, keeps, -⟩, -⟩
      cases rval with
      | success =>
        dsimp only
        rw [writeNewHead, blocksSetInfoBlockStruct_refused refused, stop_bind, stop_bind]
        exact UnderFaults.stop _
      | _ => exact UnderFaults.fseek_bind fun _ => UnderFaults.ret ⟨RndError.noConfusion, keeps⟩
  refine UnderFaults.note_bind (UnderFaults.bind body ?_)
  rintro ⟨rval, made⟩ after _ failed
  exact UnderFaults.note_bind (UnderFaults.ret failed)

/-- A block that is not the header of a table can be set in its buffer, if it can be prepared. -/
theorem RndBlockDef.Allotted.settable {chunkSize : UInt32} (allotted : bdef.Allotted chunkSize)
    (preparable : bdef.Preparable) : bdef.Settable := by
  refine ⟨fun table => ?_, fun file => preparable (.inr file)⟩
  rcases allotted.type with type | type | type <;> rw [table] at type <;> cases type

/-- An append of a block of some size leaves the old bytes, whatever fails without a loss. -/
theorem blocksAppendBlock_behind {chunkSize : UInt32} (allotted : bdef.Allotted chunkSize) :
    UnderFaults platform file (blocksAppendBlock handle bdef) fun _ after _ => file <+: after := by
  by_cases preparable : bdef.Preparable
  · refine (blocksAppendBlock_faults (allotted.settable preparable)).mono ?_
    rintro result after _ ⟨-, appended⟩
    exact appended.front.behind allotted.some
  · refine (unpreparable_fails preparable).mono ?_
    rintro result after _ ⟨-, keeps⟩
    exact keeps.behind allotted.some

/-- A delivered block stands where the file ended, and its header can be set in its buffer. -/
theorem blocksAppendBlock_delivers {chunkSize : UInt32} (allotted : bdef.Allotted chunkSize)
    {placed : RndBlockDef}
    (completed : run (posix platform) (blocksAppendBlock handle bdef) world =
      (.ok (.success, placed), after))
    (lossless : Lossless platform (log (posix platform) (blocksAppendBlock handle bdef) world)) :
    bdef.Settable ∧ placed = bdef.placed world.file ∧ after.file = appended world.file bdef := by
  have preparable : bdef.Preparable := by
    by_contra refused
    exact (unpreparable_fails refused world rfl _ _ completed lossless).1 rfl
  have settable := allotted.settable preparable
  obtain ⟨-, left⟩ := blocksAppendBlock_faults settable world rfl _ _ completed lossless
  obtain ⟨same, file, -⟩ := left.whole rfl
  exact ⟨settable, same, file⟩

/-- A header with another link is the same in front of the link. -/
theorem relinked_front {parent index : Nat} {newLink : BlockLoc} (inside : parent + 32 ≤ file.length)
    (before : index < 16) :
    { headAt file parent with nextBlock := newLink }.toBytes[index]? = file[parent + index]? := by
  have length := (headAt file parent).toBytes_length
  rw [← InfoBlock.toBytes_link, patch_getElem?_outside (by omega) (.inl before),
    toBytes_headAt inside,
    slice_getElem?, if_pos (by omega)]

/-- A write whose first bytes are what is there changes only what is behind them. -/
theorem patch_behind {written : List UInt8} {start front : Nat}
    (inside : start + written.length ≤ file.length)
    (kept : ∀ index, index < front → index < written.length → written[index]? = file[start + index]?)
    {index : Nat} (aside : index < start + front ∨ start + written.length ≤ index) :
    (patch file start written)[index]? = file[index]? := by
  by_cases among : start ≤ index ∧ index < start + written.length
  · rw [patch_getElem?_inside file among.1 among.2, kept _ (by omega) (by omega),
      Nat.add_sub_cancel' among.1]
  · by_cases reached : index < file.length
    · exact patch_getElem?_outside reached (by omega)
    · rw [List.getElem?_eq_none (by rw [patch_length_inside inside]; omega),
        List.getElem?_eq_none (by omega)]

/-- A link changes nothing but the link of one header, even where its write is cut short. -/
theorem chainsAddLink_aside {parent : Nat} {newLink : BlockLoc}
    (inside : parent + 32 ≤ file.length) :
    UnderFaults platform file (chainsAddLink parent newLink) fun _ after _ =>
      after.length = file.length ∧ ∀ index, index < parent + 16 ∨ parent + 32 ≤ index →
        after[index]? = file[index]? := by
  have untouched : file.length = file.length ∧ ∀ index, index < parent + 16 ∨ parent + 32 ≤ index →
      file[index]? = file[index]? := ⟨rfl, fun _ _ => rfl⟩
  -- what is written is the old header up to its link, or the first bytes of that
  have partly (written : List UInt8) (count : Nat)
      (same : written = { headAt file parent with nextBlock := newLink }.toBytes.take count) :
      (patch file parent written).length = file.length ∧
        ∀ index, index < parent + 16 ∨ parent + 32 ≤ index →
          (patch file parent written)[index]? = file[index]? := by
    have short : written.length ≤ 32 := by
      rw [same, List.length_take, InfoBlock.toBytes_length]
      exact Nat.min_le_right _ _
    refine ⟨patch_length_inside (by omega), fun index aside =>
      @patch_behind file written parent 16 (by omega) ?_ index (by omega)⟩
    intro index before among
    rw [same, List.length_take] at among
    rw [same, List.getElem?_take_of_lt (by omega)]
    exact relinked_front inside before
  refine UnderFaults.seekRead_bind (fun start _ same => ?_) (UnderFaults.kept_error untouched)
  obtain rfl : parent = start := Int.natCast_inj.mp same
  dsimp only
  split
  · exact UnderFaults.ret untouched
  · refine UnderFaults.seekWrite_bind (fun start same _ => ?_) (fun start count same => ?_)
      (UnderFaults.kept_error untouched)
    · obtain rfl : parent = start := Int.natCast_inj.mp same
      refine UnderFaults.ret (partly _ 32 ?_)
      exact (List.take_of_length_le (by rw [InfoBlock.toBytes_length])).symm
    · obtain rfl : parent = start := Int.natCast_inj.mp same
      exact UnderFaults.kept_error (partly _ count rfl)

end Steps

/-! ## Whole runs -/

section Runs

variable {platform : Platform} {flags chunkSize recSize : UInt32} {handle : Rndh}
variable {blocks : List Extent} {world : World} {file after : List UInt8}

/-- Whole chunks have room for the longest header. -/
theorem RndBlockDef.Allotted.large {bdef : RndBlockDef} (allotted : bdef.Allotted chunkSize)
    (large : sizeofHeadFile ≤ chunkSize.toNat) : sizeofHeadFile ≤ bdef.blockSize.toNat :=
  large.trans (Nat.le_of_dvd allotted.some allotted.whole)

theorem extent_placed {bdef : RndBlockDef} :
    (bdef.placed file).newBlock.extent = ⟨file.length, bdef.blockSize.toNat⟩ := by
  simp [RndBlockDef.placed, BlockLoc.extent]

/-- Bytes behind a block are no bytes of it. -/
theorem keptAside_of_prefix {extent : Extent} (kept : file <+: after)
    (inside : extent.stop ≤ file.length) : KeptAside extent file after := by
  obtain ⟨rest, rfl⟩ := kept
  intro index _ below _
  exact List.getElem?_append_left (by omega)

theorem allotment_fresh (large : sizeofHeadFile ≤ chunkSize.toNat) :
    Allotment [⟨0, chunkSize.toNat⟩] (freshFile chunkSize recSize) := by
  have length := freshFile_length large recSize
  refine ⟨by omega, fun extent among => ?_, List.pairwise_singleton _ _⟩
  obtain rfl := List.mem_singleton.mp among
  exact ⟨large, by rw [Extent.stop, length, Nat.zero_add]⟩

/-- Blocks stay allotted while the file keeps its length. -/
theorem Allotment.longer (allotment : Allotment blocks file) (longer : file.length ≤ after.length) :
    Allotment blocks after :=
  ⟨allotment.large.trans longer, fun extent among =>
    ⟨(allotment.within extent among).1, (allotment.within extent among).2.trans longer⟩,
      allotment.apart⟩

/-- A block behind the old end is apart from the others. -/
theorem Allotment.append {bdef : RndBlockDef} (allotment : Allotment blocks file)
    (large : sizeofHeadFile ≤ bdef.blockSize.toNat) :
    Allotment (blocks ++ [⟨file.length, bdef.blockSize.toNat⟩]) (appended file bdef) := by
  have length := @appended_length file bdef
  have kept : Allotment blocks (appended file bdef) := allotment.longer (by omega)
  refine ⟨kept.large, fun extent among => ?_, ?_⟩
  · rcases List.mem_append.mp among with before | new
    · exact kept.within extent before
    · obtain rfl := List.mem_singleton.mp new
      refine ⟨large, ?_⟩
      rw [Extent.stop, length]
      exact Nat.le_max_left _ _
  · refine List.pairwise_append.mpr ⟨allotment.apart, List.pairwise_singleton _ _, ?_⟩
    intro one before other new
    obtain rfl := List.mem_singleton.mp new
    exact (allotment.within one before).2

/-- A link leaves every block aside from its link: the header it is written to is that of the
block, or lies outside of it. -/
theorem Allotment.keptAside (allotment : Allotment blocks file) {parent extent : Extent}
    (parentAmong : parent ∈ blocks) (among : extent ∈ blocks)
    (aside : ∀ index, index < parent.start + 16 ∨ parent.start + 32 ≤ index →
      after[index]? = file[index]?) : KeptAside extent file after := by
  have long : 72 ≤ parent.size := (allotment.within parent parentAmong).1
  by_cases same : extent = parent
  · subst same
    exact fun index _ _ apart => aside index apart
  · have disjoint := disjoint_of_apart allotment.apart among parentAmong same
    intro index above below _
    apply aside
    unfold Extent.stop at disjoint below
    omega

/-- A file that was made is a new one. -/
theorem fresh_of_create {after : World} (large : sizeofHeadFile ≤ chunkSize.toNat)
    (create : rndCreate flags = true)
    (completed : run (posix platform) (blocksFileOpen flags chunkSize recSize) world =
      (.ok (.success, handle), after)) :
    after.file = freshFile chunkSize recSize := by
  have positive : chunkSize > 0 := UInt32.lt_iff_toNat_lt.mpr (Nat.lt_of_lt_of_le (by decide) large)
  exact (blocksFileOpen_create create positive completed).1

/-- What an append leaves of the blocks before it, and what it delivers. -/
theorem append_blocks {bdef placed : RndBlockDef} {rval : RndError} {after : World}
    (large : sizeofHeadFile ≤ chunkSize.toNat)
    (allotment : Allotment blocks world.file) (allotted : bdef.Allotted chunkSize)
    (completed : run (posix platform) (blocksAppendBlock handle bdef) world =
      (.ok (rval, placed), after))
    (lossless : Lossless platform (log (posix platform) (blocksAppendBlock handle bdef) world)) :
    Allotment (blocks ++ delivered rval placed) after.file ∧
      (∀ extent ∈ blocks, KeptAside extent world.file after.file) ∧
      ∀ extent ∈ delivered rval placed, extent = ⟨world.file.length, bdef.blockSize.toNat⟩ ∧
        bdef.Settable ∧ after.file = appended world.file bdef := by
  have kept : world.file <+: after.file :=
    blocksAppendBlock_behind allotted world rfl _ _ completed lossless
  have before (extent : Extent) (among : extent ∈ blocks) : KeptAside extent world.file after.file :=
    keptAside_of_prefix kept (allotment.within extent among).2
  by_cases success : rval = .success
  · subst success
    obtain ⟨settable, rfl, file⟩ := blocksAppendBlock_delivers allotted completed lossless
    rw [delivered, if_pos rfl, extent_placed]
    refine ⟨?_, before, fun extent new => ⟨List.mem_singleton.mp new, settable, file⟩⟩
    rw [file]
    exact allotment.append (allotted.large large)
  · rw [delivered, if_neg success, List.append_nil]
    exact ⟨allotment.longer kept.length_le, before, fun _ new => absurd new List.not_mem_nil⟩

/-- The blocks of a run lie apart inside its file. -/
theorem BlockRun.allotment (large : sizeofHeadFile ≤ chunkSize.toNat)
    (made : BlockRun platform flags chunkSize recSize handle blocks world) :
    Allotment blocks world.file := by
  induction made with
  | create create completed =>
    rw [fresh_of_create large create completed]
    exact allotment_fresh large
  | append earlier allotted completed lossless ih =>
    exact (append_blocks large ih allotted completed lossless).1
  | @link blocks before after parent newLink rval earlier among completed lossless ih =>
    have inside := ih.within parent among
    have long : 72 ≤ parent.size := inside.1
    rw [Extent.stop] at inside
    obtain ⟨length, -⟩ := chainsAddLink_aside (by omega) before rfl _ _ completed lossless
    exact ih.longer (Nat.le_of_eq length.symm)

/-- A property of a block that does not depend on its link holds in every run of every block for
which it holds when the block is made. -/
theorem BlockRun.each {P : List UInt8 → Extent → Prop} (large : sizeofHeadFile ≤ chunkSize.toNat)
    (stable : ∀ file after extent, sizeofHeadFile ≤ extent.size → KeptAside extent file after →
      P file extent → P after extent)
    (root : P (freshFile chunkSize recSize) ⟨0, chunkSize.toNat⟩)
    (appends : ∀ file bdef, bdef.Allotted chunkSize → bdef.Settable → sizeofHeadFile ≤ file.length →
      P (appended file bdef) ⟨file.length, bdef.blockSize.toNat⟩)
    (made : BlockRun platform flags chunkSize recSize handle blocks world) :
    ∀ extent ∈ blocks, P world.file extent := by
  induction made with
  | create create completed =>
    intro extent among
    obtain rfl := List.mem_singleton.mp among
    rw [fresh_of_create large create completed]
    exact root
  | @append blocks before after bdef placed rval earlier allotted completed lossless ih =>
    have allotment := earlier.allotment large
    obtain ⟨-, kept, new⟩ := append_blocks large allotment allotted completed lossless
    intro extent among
    rcases List.mem_append.mp among with old | fresh
    · exact stable _ _ extent (allotment.within extent old).1 (kept extent old) (ih extent old)
    · obtain ⟨rfl, settable, file⟩ := new extent fresh
      rw [file]
      exact appends before.file bdef allotted settable allotment.large
  | @link blocks before after parent newLink rval earlier among completed lossless ih =>
    have allotment := earlier.allotment large
    have inside := allotment.within parent among
    have long : 72 ≤ parent.size := inside.1
    rw [Extent.stop] at inside
    obtain ⟨-, aside⟩ := chainsAddLink_aside (by omega) before rfl _ _ completed lossless
    intro extent member
    exact stable _ _ extent (allotment.within extent member).1
      (allotment.keptAside among member aside) (ih extent member)

/-- The root is a block of every run. -/
theorem BlockRun.root_mem (made : BlockRun platform flags chunkSize recSize handle blocks world) :
    (⟨0, chunkSize.toNat⟩ : Extent) ∈ blocks := by
  induction made with
  | create => exact List.mem_singleton.mpr rfl
  | append earlier allotted completed lossless ih => exact List.mem_append_left _ ih
  | link earlier among completed lossless ih => exact ih

end Runs

end Recnodb
