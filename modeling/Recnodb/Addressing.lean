import Recnodb.TableChain

/-!
# Record addresses in an existing chain

The address of a record is the start of its block, past the header, plus its
place in the block times the record size. Exact addresses of different records
are disjoint slots inside payloads. The search walks to the right block but adds
to the offset of the root, so it delivers the exact address for the records of
the root block and for no others.
-/

namespace Recnodb

open Interaction Octets Program

/-- The range of a block. -/
def blockEnd (file : List UInt8) (offset : Nat) : Nat :=
  offset + (headAt file offset).blockSize.toNat

/-- A table on disk, with its header read into memory: a chain of disjoint blocks,
each with room for its header. -/
structure TableAt (file : List UInt8) (root : Nat) (htable : RndHeadTable) (rest : List Nat) :
    Prop where
  chain : IsChain file (root :: rest)
  copy : htable = RndHeadTable.ofBytes (slice file root 64)
  room : ∀ offset ∈ root :: rest,
    (headAt file offset).bytesToData.toNat ≤ (headAt file offset).blockSize.toNat
  apart : (root :: rest).Pairwise fun one other =>
    blockEnd file one ≤ other ∨ blockEnd file other ≤ one
  records : htable.thead.recSize.toNat < 2 ^ 32 - 1
  total : (capacities file htable (root :: rest)).sum < 2 ^ 32

/-- The length of a slot. -/
def slotSize (htable : RndHeadTable) : Nat := htable.thead.recSize.toNat + 1

/-- The address of a record: the start of the data of its block plus the slots
before it. -/
def exactAddress (file : List UInt8) (htable : RndHeadTable) (blocks : List Nat) (recno : UInt32) :
    Option Nat :=
  (Segments.locate (capacities file htable blocks) (recno.toNat - 1)).bind fun found =>
    blocks[found.1]?.map fun offset =>
      offset + (headAt file offset).bytesToData.toNat + found.2 * slotSize htable

/-- The search answers with the exact address and leaves the file as it was. -/
def AddressedExactly (platform : Platform) (world : World) (fuel : Nat) (handle : Rndh)
    (bloc : BlockLoc) (htable : RndHeadTable) (blocks : List Nat) (recno : UInt32) : Prop :=
  let outcome :=
    run (posix platform) (flatrecsMakeOffsetToRecno fuel handle bloc htable recno) world
  outcome.2.file = world.file ∧ ∃ address : Nat,
    exactAddress world.file htable blocks recno = some address ∧
      outcome.1 = .ok (.success, (address : OffT))

section Slots

variable {file : List UInt8} {root : Nat} {htable : RndHeadTable} {rest : List Nat}

theorem TableAt.recsize (table : TableAt file root htable rest) :
    (flatrecsFullRecsize htable).toNat = slotSize htable := by
  have bound := table.records
  rw [flatrecsFullRecsize, UInt32.toNat_add, slotSize]
  simp only [UInt32.toNat_one]
  omega

/-- The capacity of a block of the table, exactly. -/
theorem TableAt.capacity (table : TableAt file root htable rest) {offset : Nat}
    (among : offset ∈ root :: rest) :
    capacityAt file htable offset =
      ((headAt file offset).blockSize.toNat - (headAt file offset).bytesToData.toNat) /
        slotSize htable := by
  have room := table.room offset among
  have positive : flatrecsFullRecsize htable > 0 := by
    rw [gt_iff_lt, UInt32.lt_iff_toNat_lt, table.recsize]
    exact Nat.succ_pos _
  have fits : (headAt file offset).bytesToData.toUInt32 ≤ (headAt file offset).blockSize := by
    rw [UInt32.le_iff_toNat_le]
    simpa using room
  rw [capacityAt, flatrecsGetRecordCapacity, if_pos positive, UInt32.toNat_div,
    UInt32.toNat_sub_of_le _ _ fits, table.recsize]
  simp

/-- A located record has its slot inside the payload of its block. -/
theorem TableAt.slot_inside (table : TableAt file root htable rest) {offset place : Nat}
    (among : offset ∈ root :: rest) (below : place < capacityAt file htable offset) :
    offset + (headAt file offset).bytesToData.toNat + place * slotSize htable + slotSize htable ≤
      blockEnd file offset := by
  rw [table.capacity among] at below
  have cell := Segments.cell_inside below
  have room := table.room offset among
  rw [blockEnd]
  omega

/-- What an exact address is made of. -/
theorem exactAddress_cases {blocks : List Nat} {recno : UInt32} {address : Nat}
    (exact : exactAddress file htable blocks recno = some address) :
    ∃ (segment place : Nat) (inside : segment < blocks.length),
      Segments.locate (capacities file htable blocks) (recno.toNat - 1) = some (segment, place) ∧
      place < capacityAt file htable blocks[segment] ∧
      address = blocks[segment] + (headAt file blocks[segment]).bytesToData.toNat +
        place * slotSize htable := by
  rw [exactAddress, Option.bind_eq_some_iff] at exact
  obtain ⟨⟨segment, place⟩, located, exact⟩ := exact
  obtain ⟨offset, found, rfl⟩ := Option.map_eq_some_iff.mp exact
  obtain ⟨inside, rfl⟩ := List.getElem?_eq_some_iff.mp found
  obtain ⟨_, below, -⟩ := (Segments.locate_eq_some_iff _ _ _ _).mp located
  exact ⟨segment, place, inside, located, by simpa [capacities] using below, rfl⟩

/-- Every exact slot lies in the payload of a block of the table. -/
theorem TableAt.exact_inside (table : TableAt file root htable rest) {recno : UInt32}
    {address : Nat} (exact : exactAddress file htable (root :: rest) recno = some address) :
    ∃ offset ∈ root :: rest, offset + (headAt file offset).bytesToData.toNat ≤ address ∧
      address + slotSize htable ≤ blockEnd file offset := by
  obtain ⟨segment, place, inside, -, below, rfl⟩ := exactAddress_cases exact
  exact ⟨_, List.getElem_mem inside, by omega,
    table.slot_inside (List.getElem_mem inside) below⟩

/-- Exact slots of different records do not meet. -/
theorem TableAt.exact_apart (table : TableAt file root htable rest) {one other : UInt32}
    {first second : Nat} (oneFirst : 1 ≤ one.toNat) (otherFirst : 1 ≤ other.toNat)
    (different : one ≠ other)
    (here : exactAddress file htable (root :: rest) one = some first)
    (there : exactAddress file htable (root :: rest) other = some second) :
    first + slotSize htable ≤ second ∨ second + slotSize htable ≤ first := by
  obtain ⟨segment, place, inside, located, below, rfl⟩ := exactAddress_cases here
  obtain ⟨segment', place', inside', located', below', rfl⟩ := exactAddress_cases there
  by_cases same : segment = segment'
  · subst same
    -- in one block, different records have different places
    have places : place ≠ place' := by
      rintro rfl
      have equal := Segments.locate_injective located located'
      exact different (UInt32.toNat.inj (by omega))
    rcases @Segments.cells_apart (slotSize htable) _ _ places with before | after
    · left
      omega
    · right
      omega
  · -- in two blocks, the slots lie in disjoint ranges
    have slot := table.slot_inside (List.getElem_mem inside) below
    have slot' := table.slot_inside (List.getElem_mem inside') below'
    rcases Nat.lt_or_gt_of_ne same with less | greater
    · have := List.pairwise_iff_getElem.mp table.apart segment segment' inside inside' less
      omega
    · have := List.pairwise_iff_getElem.mp table.apart segment' segment inside' inside greater
      omega

/-- The offset that the search computes from the block it stopped at. -/
theorem TableAt.foundOffset_eq (table : TableAt file root htable rest) {bloc : BlockLoc}
    {recno : UInt32} {there : Search} {target place : Nat} (among : target ∈ root :: rest)
    (stands : StandsAt file target (recno.toNat - place) there) (behind : there.Behind recno)
    (reached : place ≤ recno.toNat) (below : place < capacityAt file htable target) :
    foundOffset bloc htable recno there = bloc.offset +
      ((headAt file target).bytesToData.toNat + place * slotSize htable : Nat) := by
  have slot := table.slot_inside among below
  have bound := (headAt file target).blockSize.toNat_lt
  have index : (recno - there.startRec).toNat = place := by
    rw [UInt32.toNat_sub_of_le _ _ behind, stands.start]
    omega
  have product : ((recno - there.startRec) * flatrecsFullRecsize htable).toNat =
      place * slotSize htable := by
    rw [UInt32.toNat_mul, index, table.recsize, Nat.mod_eq_of_lt]
    rw [blockEnd] at slot
    omega
  rw [foundOffset, product, stands.head.data]
  push_cast
  ring

end Slots

section Search

variable {memory : Nat → Nat → UInt8} {file : List UInt8} {root : Nat} {htable : RndHeadTable}
variable {rest : List Nat} {handle : Rndh} {bloc : BlockLoc}

/-- The search starts at the root, with record number one. -/
theorem TableAt.starts (table : TableAt file root htable rest) (here : bloc.offset = root) :
    StandsAt file root 1 ⟨htable.bhead, bloc.offset, 1⟩ := by
  refine ⟨?_, here, rfl⟩
  rw [table.copy]
  simp only [RndHeadTable.ofBytes]
  rw [slice_slice _ _ _ _ _ (by omega : 0 + 32 ≤ 64)]
  exact InfoBlock.Alike.refl _

/-- What the search answers for a record of the table. -/
theorem TableAt.search_answers (table : TableAt file root htable rest) (here : bloc.offset = root)
    {recno : UInt32} (first : 1 ≤ recno.toNat) {segment place fuel : Nat}
    (located : Segments.locate (capacities file htable (root :: rest)) (recno.toNat - 1) =
      some (segment, place)) (enough : rest.length < fuel) :
    OnFile memory file (flatrecsMakeOffsetToRecno fuel handle bloc htable recno)
      fun result after _ => after = file ∧ ∃ inside : segment < (root :: rest).length,
        result = (.success, ((root + (headAt file (root :: rest)[segment]).bytesToData.toNat +
          place * slotSize htable : Nat) : OffT)) := by
  obtain ⟨inside, below, total⟩ := (Segments.locate_eq_some_iff _ _ _ _).mp located
  have among : segment < (root :: rest).length := by simpa using inside
  obtain ⟨spare, rfl⟩ : ∃ spare, fuel = spare + 1 + segment := by
    refine ⟨fuel - segment - 1, ?_⟩
    simp only [List.length_cons] at among
    omega
  obtain ⟨there, target, found, stands, behind, covered, moves⟩ :=
    walk_found table.chain (table.starts here) first located
  obtain ⟨_, rfl⟩ := List.getElem?_eq_some_iff.mp found
  refine OnFile.of_moves moves (searchFrom_found covered ⟨rfl, among, Prod.ext rfl ?_⟩)
  rw [table.foundOffset_eq (List.getElem_mem among) stands behind (by omega)
    (by simpa only [capacities, List.getElem_map] using below), here]
  push_cast
  ring

end Search

/-- Only the root is at the offset of the root. -/
theorem TableAt.root_alone {file : List UInt8} {root : Nat} {htable : RndHeadTable}
    {rest : List Nat} (table : TableAt file root htable rest) {segment place : Nat}
    (inside : segment < (root :: rest).length)
    (below : place < capacityAt file htable (root :: rest)[segment])
    (same : (root :: rest)[segment] = root) : segment = 0 := by
  by_contra later
  have slot := table.slot_inside (List.getElem_mem inside) below
  have apart := List.pairwise_iff_getElem.mp table.apart 0 segment (by simp) inside (by omega)
  rw [List.getElem_cons_zero, same] at apart
  rw [same] at slot
  have positive : 0 < slotSize htable := Nat.succ_pos _
  omega

/-- For every record of the table, the search answers with the exact address if
and only if the record is in the root block. Exact addresses are slots inside
payloads, disjoint for different records. -/
theorem addressedExactly_iff {platform : Platform} {world : World} {fuel : Nat} {handle : Rndh}
    {bloc : BlockLoc} {htable : RndHeadTable} {root : Nat} {rest : List Nat} {recno : UInt32}
    (table : TableAt world.file root htable rest) (here : bloc.offset = root)
    (first : 1 ≤ recno.toNat)
    (last : recno.toNat ≤ (capacities world.file htable (root :: rest)).sum)
    (enough : rest.length < fuel)
    (calm : (run (posix platform) (flatrecsMakeOffsetToRecno fuel handle bloc htable recno)
      world).2.failures = world.failures) :
    (AddressedExactly platform world fuel handle bloc htable (root :: rest) recno ↔
      recno.toNat ≤ capacityAt world.file htable root) ∧
    (∀ address, exactAddress world.file htable (root :: rest) recno = some address →
      (∃ offset ∈ root :: rest,
        offset + (headAt world.file offset).bytesToData.toNat ≤ address ∧
          address + slotSize htable ≤ blockEnd world.file offset) ∧
      ∀ other address', 1 ≤ other.toNat → other ≠ recno →
        exactAddress world.file htable (root :: rest) other = some address' →
          address + slotSize htable ≤ address' ∨ address' + slotSize htable ≤ address) := by
  refine ⟨?_, fun address exact => ⟨table.exact_inside exact, fun other address' otherFirst
    different exact' => table.exact_apart first otherFirst different.symm exact exact'⟩⟩
  obtain ⟨⟨segment, place⟩, located⟩ := Option.isSome_iff_exists.mp
    ((Segments.locate_isSome_iff (capacities world.file htable (root :: rest))
      (recno.toNat - 1)).mpr (by omega))
  obtain ⟨result, after, completed, unchanged, inside, rfl⟩ :=
    @TableAt.search_answers platform.memory _ _ _ _ handle _ table here _ first _ _ _ located enough
      world rfl
  obtain ⟨same, -⟩ := run_calm calm
  obtain ⟨_, below, total⟩ := (Segments.locate_eq_some_iff _ _ _ _).mp located
  have room : place < capacityAt world.file htable (root :: rest)[segment] := by
    simpa only [capacities, List.getElem_map] using below
  have exact : exactAddress world.file htable (root :: rest) recno =
      some ((root :: rest)[segment] +
        (headAt world.file (root :: rest)[segment]).bytesToData.toNat +
        place * slotSize htable) := by
    rw [exactAddress, located, Option.bind_some, List.getElem?_eq_getElem inside, Option.map_some]
  have outcome : AddressedExactly platform world fuel handle bloc htable (root :: rest) recno ↔
      (root :: rest)[segment] = root := by
    rw [AddressedExactly, same, completed, exact]
    constructor
    · rintro ⟨-, address, ⟨⟩, answered⟩
      have offsets := Int.natCast_inj.mp (congrArg Prod.snd (Except.ok.inj answered))
      omega
    · intro equal
      exact ⟨unchanged, _, rfl, by rw [equal]⟩
  rw [outcome]
  constructor
  · intro equal
    obtain rfl := table.root_alone inside room equal
    rw [List.getElem_cons_zero] at room
    rw [List.take_zero, List.sum_nil] at total
    omega
  · intro within
    rw [capacities_cons, Segments.locate_here _ (by omega)] at located
    obtain ⟨rfl, rfl⟩ := Prod.mk.inj (Option.some.inj located)
    rfl

/-! ## A table of two blocks -/

/-- A root of 80 bytes that holds two records of three bytes, and a data block of
80 bytes behind it. -/
def twoBlocks : List UInt8 :=
  RndHeadFile.toBytes ⟨⟨BType.table.code, 72, 80, 0, ⟨80, 80⟩⟩, ⟨0, 0, 0⟩, ⟨3, 0⟩, ⟨rndb, 80⟩⟩ ++
    List.replicate 8 0 ++ InfoBlock.toBytes ⟨BType.data.code, 32, 80, 0, ⟨0, 0⟩⟩ ++
      List.replicate 48 0

/-- The header of that table, as read. -/
def twoBlocksTable : RndHeadTable := RndHeadTable.ofBytes (slice twoBlocks 0 64)

/-- A handle of that file. -/
def twoBlocksHandle : Rndh := ⟨some 0, RndHeadFile.ofBytes (slice twoBlocks 0 72)⟩

/-- No failure is injected, and the memory next to buffers holds zeros. -/
def soundPlatform : Platform := Platform.sound fun _ _ => 0

theorem twoBlocks_table : TableAt twoBlocks 0 twoBlocksTable [80] where
  chain := by
    refine ⟨?_, ?_, ?_, ?_, ?_⟩ <;> decide +kernel
  copy := rfl
  room := by decide +kernel
  apart := by decide +kernel
  records := by decide +kernel
  total := by decide +kernel

/-- A process that has opened it. -/
def twoBlocksWorld : World := { disk := twoBlocks, streams := 1, live := [0] }

/-- The first record is in the root. -/
theorem addressedExactly_iff_first :
    (AddressedExactly soundPlatform twoBlocksWorld 2 twoBlocksHandle ⟨0, 64⟩
      twoBlocksTable [0, 80] 1 ↔ 1 ≤ capacityAt twoBlocks twoBlocksTable 0) :=
  (@addressedExactly_iff _ twoBlocksWorld _ _ _ _ _ _ _ twoBlocks_table rfl
    (by decide)
    (by decide +kernel) (by decide) (by decide +kernel)).1

/-- The third record is the first of the second block, whose data start at 112.
The search answers 32, inside the header of the root. -/
theorem third_record_misaddressed :
    TableAt twoBlocks 0 twoBlocksTable [80] ∧
      exactAddress twoBlocks twoBlocksTable [0, 80] 3 = some 112 ∧
      (run (posix soundPlatform)
        (flatrecsMakeOffsetToRecno 2 twoBlocksHandle ⟨0, 64⟩ twoBlocksTable 3)
          twoBlocksWorld).1 = .ok (.success, 32) ∧
      ¬ AddressedExactly soundPlatform twoBlocksWorld 2 twoBlocksHandle
        ⟨0, 64⟩ twoBlocksTable [0, 80] 3 := by
  have exact : exactAddress twoBlocksWorld.file twoBlocksTable [0, 80] 3 = some 112 := by
    decide +kernel
  have answer : (run (posix soundPlatform)
      (flatrecsMakeOffsetToRecno 2 twoBlocksHandle ⟨0, 64⟩ twoBlocksTable 3)
        twoBlocksWorld).1 = .ok (.success, 32) := by decide +kernel
  refine ⟨twoBlocks_table, exact, answer, ?_⟩
  rintro ⟨-, address, found, answered⟩
  rw [answer] at answered
  rw [exact] at found
  obtain rfl := Option.some.inj found
  exact absurd answered (by decide)

end Recnodb
