import Recnodb.Growth

/-!
# Chains whose headers lie apart

The blocks of a chain as they lie in the file: every header ends inside the file,
and no header reaches into another. A block that is appended and linked to the
last one is the new last block. The headers of the others stay as they were, and
that of the old last block differs in its link only.
-/

namespace Recnodb

open Interaction Octets Program

/-- The length of the header of a block, by its type. -/
def headLength (file : List UInt8) (offset : Nat) : Nat :=
  32 + overrun (headAt file offset).blockType

/-- Two headers do not meet. -/
def HeadsApart (file : List UInt8) (one other : Nat) : Prop :=
  one + headLength file one ≤ other ∨ other + headLength file other ≤ one

/-- Every header ends inside the file, and no header reaches into another. -/
structure HeadsLaid (file : List UInt8) (blocks : List Nat) : Prop where
  inside : ∀ offset ∈ blocks, offset + headLength file offset ≤ file.length
  apart : blocks.Pairwise (HeadsApart file)

/-- The blocks form a chain from the root, and their headers lie apart in a file
that an `off_t` can measure. -/
structure Laid (file : List UInt8) (root : Nat) (blocks : List Nat) : Prop where
  heads : HeadsLaid file blocks
  chain : IsChain file blocks
  head : blocks.head? = some root
  bounded : file.length ≤ offMax

/-- A header that differs from an old one in its link at most. -/
structure InfoBlock.SameBlock (first second : InfoBlock) : Prop where
  type : first.blockType = second.blockType
  data : first.bytesToData = second.bytesToData
  size : first.blockSize = second.blockSize

theorem InfoBlock.Alike.sameBlock {first second : InfoBlock} (alike : first.Alike second) :
    first.SameBlock second :=
  ⟨alike.type, alike.data, alike.size⟩

instance (file : List UInt8) : Std.Symm (HeadsApart file) := ⟨fun _ _ => Or.symm⟩

theorem capacity_sameBlock {htable : RndHeadTable} {first second : InfoBlock}
    (same : first.SameBlock second) :
    flatrecsGetRecordCapacity htable first = flatrecsGetRecordCapacity htable second := by
  rw [flatrecsGetRecordCapacity, flatrecsGetRecordCapacity, same.size, same.data]

theorem headLength_sameBlock {file after : List UInt8} {offset : Nat}
    (same : (headAt after offset).SameBlock (headAt file offset)) :
    headLength after offset = headLength file offset := by
  rw [headLength, headLength, same.type]

/-! ## Chains as lists -/

/-- A chain splits at its last block. -/
theorem IsChain.split_last {file : List UInt8} {blocks : List Nat} (chain : IsChain file blocks) :
    ∃ before last, blocks = before ++ [last] := by
  cases blocks with
  | nil => exact chain.elim
  | cons offset rest => exact ⟨_, _, (List.dropLast_append_getLast (List.cons_ne_nil _ _)).symm⟩

/-- The last block of a chain. -/
theorem IsChain.at_last {file : List UInt8} {before : List Nat} {last : Nat}
    (chain : IsChain file (before ++ [last])) :
    last + 32 ≤ file.length ∧ (headAt file last).nextBlock.offset = 0 := by
  induction before with
  | nil => exact chain
  | cons offset rest ih =>
    cases rest with
    | nil => exact ih chain.tail
    | cons next rest => exact ih chain.tail

/-- A block of a chain that is not the last one names its successor. -/
theorem IsChain.at_inner {file : List UInt8} {before behind : List Nat} {offset next : Nat}
    (chain : IsChain file (before ++ offset :: next :: behind)) :
    next ≠ 0 ∧ next + 32 ≤ file.length ∧ (headAt file offset).nextBlock.offset = next := by
  induction before with
  | nil => exact ⟨chain.2.1, chain.tail.head_inside, chain.2.2.1⟩
  | cons first rest ih =>
    cases rest with
    | nil => exact ih chain.tail
    | cons second rest => exact ih chain.tail

/-- A chain whose last block is linked to a new one is longer by that block. -/
theorem IsChain.extend {file after : List UInt8} {before : List Nat} {last new : Nat}
    (chain : IsChain file (before ++ [last])) (longer : file.length ≤ after.length)
    (kept : ∀ offset ∈ before, (headAt after offset).Alike (headAt file offset))
    (link : (headAt after last).nextBlock.offset = new) (nonzero : new ≠ 0)
    (newInside : new + 32 ≤ after.length) (free : (headAt after new).nextBlock.offset = 0) :
    IsChain after (before ++ [last, new]) := by
  induction before with
  | nil => exact ⟨chain.1.trans longer, nonzero, link, newInside, free⟩
  | cons offset rest ih =>
    have alike := kept offset List.mem_cons_self
    have later : ∀ other ∈ rest, (headAt after other).Alike (headAt file other) :=
      fun other among => kept other (List.mem_cons_of_mem _ among)
    cases rest with
    | nil =>
      obtain ⟨inside, some, next, tail⟩ := chain
      exact ⟨inside.trans longer, some, alike.next.trans next, ih tail later⟩
    | cons second rest =>
      obtain ⟨inside, some, next, tail⟩ := chain
      exact ⟨inside.trans longer, some, alike.next.trans next, ih tail later⟩

/-! ## One more block -/

section Grown

variable {file : List UInt8} {root last : Nat} {before : List Nat} {bdef : RndBlockDef}
variable {extra : List UInt8}

/-- The file behind an extension of a chain at its last block. -/
abbrev chainGrown (file : List UInt8) (last : Nat) (bdef : RndBlockDef) (extra : List UInt8) :
    List UInt8 :=
  linked (appended file bdef) last ⟨file.length, bdef.blockSize.toNat⟩ extra

/-- Room for the header of the last block. -/
theorem HeadsLaid.room (heads : HeadsLaid file (before ++ [last])) :
    last + 32 + overrun (headAt file last).blockType ≤ file.length := by
  have inside := heads.inside last (List.mem_append_right _ (List.mem_singleton_self _))
  rw [headLength] at inside
  omega

/-- The header of another block lies apart from that of the last one. -/
theorem HeadsLaid.apart_last (heads : HeadsLaid file (before ++ [last])) {offset : Nat}
    (among : offset ∈ before) :
    offset + 32 ≤ file.length ∧ (offset + 32 ≤ last ∨
      last + 32 + overrun (headAt file last).blockType ≤ offset) := by
  have inside := heads.inside offset (List.mem_append_left _ among)
  have apart : HeadsApart file offset last :=
    (List.pairwise_append.mp heads.apart).2.2 offset among last (List.mem_singleton_self _)
  simp only [headLength] at inside
  simp only [HeadsApart, headLength] at apart
  constructor <;> omega

/-- The header of any other block stays. -/
theorem HeadsLaid.alike_grown (heads : HeadsLaid file (before ++ [last]))
    (length : extra.length = overrun (headAt file last).blockType) {offset : Nat}
    (among : offset ∈ before) :
    (headAt (chainGrown file last bdef extra) offset).Alike (headAt file offset) := by
  obtain ⟨inside, apart⟩ := heads.apart_last among
  refine (linked_alike ?_ ?_).trans (appended_alike ?_)
  · rw [appended_length]
    omega
  · rw [length]
    omega
  · omega

/-- The header of the old last block differs in its link. -/
theorem HeadsLaid.linked_grown (heads : HeadsLaid file (before ++ [last]))
    (bounded : file.length < 2 ^ 63) :
    (headAt (chainGrown file last bdef extra) last).SameBlock (headAt file last) ∧
      (headAt (chainGrown file last bdef extra) last).nextBlock.offset = file.length := by
  have room := heads.room
  have fits : BlockLoc.Fits ⟨file.length, bdef.blockSize.toNat⟩ :=
    BlockLoc.fits_of_lt bounded (bdef.blockSize.toNat_lt.trans (by decide))
  have alike : (headAt (appended file bdef) last).Alike (headAt file last) :=
    appended_alike (by omega)
  rw [headAt_linked fits]
  exact ⟨⟨alike.type, alike.data, alike.size⟩, rfl⟩

/-- Every old block is the same block. -/
theorem HeadsLaid.same_grown (heads : HeadsLaid file (before ++ [last]))
    (bounded : file.length < 2 ^ 63)
    (length : extra.length = overrun (headAt file last).blockType) {offset : Nat}
    (among : offset ∈ before ++ [last]) :
    (headAt (chainGrown file last bdef extra) offset).SameBlock (headAt file offset) := by
  rcases List.mem_append.mp among with old | single
  · exact (heads.alike_grown length old).sameBlock
  · obtain rfl := List.mem_singleton.mp single
    exact (heads.linked_grown bounded).1

/-- Linking rewrites inside the file. -/
theorem HeadsLaid.grown_length (heads : HeadsLaid file (before ++ [last]))
    (length : extra.length = overrun (headAt file last).blockType) :
    (chainGrown file last bdef extra).length = (appended file bdef).length := by
  have room := heads.room
  apply linked_length
  rw [appended_length]
  omega

/-- The header of the new block. -/
theorem HeadsLaid.head_grown (heads : HeadsLaid file (before ++ [last]))
    (length : extra.length = overrun (headAt file last).blockType) :
    headAt (chainGrown file last bdef extra) file.length = newInfoBlock bdef := by
  have room := heads.room
  exact headAt_grown (by omega)

/-- The headers of a chain that was extended at its last block lie apart. -/
theorem HeadsLaid.grown (heads : HeadsLaid file (before ++ [last]))
    (bounded : file.length < 2 ^ 63) (short : bdef.Short)
    (length : extra.length = overrun (headAt file last).blockType) :
    HeadsLaid (chainGrown file last bdef extra) (before ++ [last] ++ [file.length]) := by
  have longer : file.length + 32 ≤ (appended file bdef).length := by
    rw [appended_length, short.newHead_eq, InfoBlock.toBytes_length]
    omega
  have same := @HeadsLaid.grown_length _ _ _ bdef _ heads length
  have newLength : headLength (chainGrown file last bdef extra) file.length = 32 := by
    rw [headLength, heads.head_grown length, newInfoBlock, overrun, short.headSize]
  constructor
  · intro offset among
    rcases List.mem_append.mp among with old | single
    · have inside := heads.inside offset old
      rw [headLength_sameBlock (heads.same_grown bounded length old)]
      omega
    · obtain rfl := List.mem_singleton.mp single
      rw [newLength]
      omega
  · rw [List.pairwise_append]
    refine ⟨?_, List.pairwise_singleton _ _, ?_⟩
    · refine heads.apart.imp_of_mem fun {one other} oneAmong otherAmong apart => ?_
      rw [HeadsApart, headLength_sameBlock (heads.same_grown bounded length oneAmong),
        headLength_sameBlock (heads.same_grown bounded length otherAmong)]
      exact apart
    · intro offset among new single
      obtain rfl := List.mem_singleton.mp single
      have inside := heads.inside offset among
      left
      rw [headLength_sameBlock (heads.same_grown bounded length among)]
      exact inside

/-- A file that an `off_t` can measure. -/
theorem lt_of_le_offMax {length : Nat} (bounded : length ≤ offMax) : length < 2 ^ 63 := by
  rw [offMax] at bounded
  omega

/-- The capacities of the old blocks stay. -/
theorem Laid.capacities_grown (laid : Laid file root (before ++ [last]))
    (length : extra.length = overrun (headAt file last).blockType) (htable : RndHeadTable) :
    capacities (chainGrown file last bdef extra) htable (before ++ [last]) =
      capacities file htable (before ++ [last]) := by
  apply List.map_congr_left
  intro offset among
  have same := @HeadsLaid.same_grown _ _ _ bdef _ laid.heads (lt_of_le_offMax laid.bounded) length
    _ among
  rw [capacityAt, capacityAt, capacity_sameBlock same]

/-- A chain that was extended at its last block is laid out with the new block. -/
theorem Laid.grown (laid : Laid file root (before ++ [last])) (short : bdef.Short)
    (length : extra.length = overrun (headAt file last).blockType)
    (bounded : (appended file bdef).length ≤ offMax) :
    Laid (chainGrown file last bdef extra) root (before ++ [last] ++ [file.length]) := by
  have below := lt_of_le_offMax laid.bounded
  have room := laid.heads.room
  have longer : file.length + 32 ≤ (appended file bdef).length := by
    rw [appended_length, short.newHead_eq, InfoBlock.toBytes_length]
    omega
  have same := @HeadsLaid.grown_length _ _ _ bdef _ laid.heads length
  constructor
  · exact laid.heads.grown below short length
  · rw [List.append_assoc]
    apply laid.chain.extend
    · omega
    · intro offset among
      exact laid.heads.alike_grown length among
    · exact (laid.heads.linked_grown below).2
    · omega
    · omega
    · rw [laid.heads.head_grown length]
      rfl
  · rw [List.head?_append, laid.head]
    rfl
  · omega

end Grown

/-! ## Growth behind a chain -/

/-- A chain in a later file: no block is gone, each is the same block, and the
links of all but the last one are kept. -/
structure Outgrows (file : List UInt8) (blocks : List Nat) (after : List UInt8)
    (blocks' : List Nat) : Prop where
  more : ∃ added, blocks' = blocks ++ added
  same : ∀ offset ∈ blocks, (headAt after offset).SameBlock (headAt file offset)
  inner : ∀ offset ∈ blocks.dropLast, (headAt after offset).Alike (headAt file offset)

theorem Outgrows.refl (file : List UInt8) (blocks : List Nat) : Outgrows file blocks file blocks :=
  ⟨⟨[], (List.append_nil _).symm⟩, fun _ _ => ⟨rfl, rfl, rfl⟩, fun _ _ => InfoBlock.Alike.refl _⟩

theorem Outgrows.trans {first second third : List UInt8} {blocks blocks' blocks'' : List Nat}
    (one : Outgrows first blocks second blocks') (two : Outgrows second blocks' third blocks'') :
    Outgrows first blocks third blocks'' := by
  obtain ⟨added, rfl⟩ := one.more
  obtain ⟨added', rfl⟩ := two.more
  constructor
  · exact ⟨added ++ added', List.append_assoc ..⟩
  · intro offset among
    have here := one.same offset among
    have there := two.same offset (List.mem_append_left _ among)
    exact ⟨there.type.trans here.type, there.data.trans here.data, there.size.trans here.size⟩
  · intro offset among
    have still : offset ∈ (blocks ++ added).dropLast := by
      cases added with
      | nil => simpa using among
      | cons next rest =>
        rw [List.dropLast_append_cons]
        exact List.mem_append_left _ (List.dropLast_subset _ among)
    exact (two.inner offset still).trans (one.inner offset among)

/-- An extension at the last block outgrows the chain. -/
theorem Laid.outgrows {file extra : List UInt8} {root last : Nat} {before : List Nat}
    {bdef : RndBlockDef} (laid : Laid file root (before ++ [last]))
    (length : extra.length = overrun (headAt file last).blockType) :
    Outgrows file (before ++ [last]) (chainGrown file last bdef extra)
      (before ++ [last] ++ [file.length]) := by
  constructor
  · exact ⟨_, rfl⟩
  · exact fun offset among =>
      laid.heads.same_grown (lt_of_le_offMax laid.bounded) length among
  · intro offset among
    rw [List.dropLast_concat] at among
    exact laid.heads.alike_grown length among

end Recnodb
