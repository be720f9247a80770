import Recnodb.BlockLaws
import Recnodb.SearchRounds
import Recnodb.Segments

/-!
# The chain of a table

A table is a chain of blocks on disk: the header of each names the next, and the
last one names none. The record search walks it from a copy of the root header.
While it is inside the chain it only reads; it stops at the block that contains
the record, or stands at the last block with the first record number behind it.
-/

namespace Recnodb

open Interaction Octets Program

/-- Headers that a search and an extension cannot tell apart: they differ in the
first record number and in the size of the link at most. -/
structure InfoBlock.Alike (first second : InfoBlock) : Prop where
  type : first.blockType = second.blockType
  data : first.bytesToData = second.bytesToData
  size : first.blockSize = second.blockSize
  next : first.nextBlock.offset = second.nextBlock.offset

/-- A header is like itself. -/
theorem InfoBlock.Alike.refl (block : InfoBlock) : block.Alike block := ⟨rfl, rfl, rfl, rfl⟩

/-- Likeness goes both ways. -/
theorem InfoBlock.Alike.symm {first second : InfoBlock} (alike : first.Alike second) :
    second.Alike first :=
  ⟨alike.type.symm, alike.data.symm, alike.size.symm, alike.next.symm⟩

/-- Likeness is passed on. -/
theorem InfoBlock.Alike.trans {first second third : InfoBlock} (left : first.Alike second)
    (right : second.Alike third) : first.Alike third :=
  ⟨left.type.trans right.type, left.data.trans right.data, left.size.trans right.size,
    left.next.trans right.next⟩

/-- The blocks at these offsets form a chain: headers lie inside the file, each
link names the next block, and the last link is empty. -/
def IsChain (file : List UInt8) : List Nat → Prop
  | [] => False
  | [offset] => offset + 32 ≤ file.length ∧ (headAt file offset).nextBlock.offset = 0
  | offset :: next :: rest => offset + 32 ≤ file.length ∧ next ≠ 0 ∧
      (headAt file offset).nextBlock.offset = next ∧ IsChain file (next :: rest)

/-- How many records of the table the block at an offset holds, as the source
computes it. -/
def capacityAt (file : List UInt8) (htable : RndHeadTable) (offset : Nat) : Nat :=
  (flatrecsGetRecordCapacity htable (headAt file offset)).toNat

/-- The capacities of blocks in order. -/
def capacities (file : List UInt8) (htable : RndHeadTable) (blocks : List Nat) : List Nat :=
  blocks.map (capacityAt file htable)

/-- The capacity of the first block, and those of the others. -/
@[simp] theorem capacities_cons (file : List UInt8) (htable : RndHeadTable) (offset : Nat)
    (rest : List Nat) : capacities file htable (offset :: rest) =
      capacityAt file htable offset :: capacities file htable rest := rfl

/-- No block has no capacity. -/
@[simp] theorem capacities_nil (file : List UInt8) (htable : RndHeadTable) :
    capacities file htable [] = [] := rfl

/-- Each block has one capacity. -/
@[simp] theorem capacities_length (file : List UInt8) (htable : RndHeadTable) (blocks : List Nat) :
    (capacities file htable blocks).length = blocks.length := List.length_map ..

/-- The first header of a chain lies in the file. -/
theorem IsChain.head_inside {file : List UInt8} {offset : Nat} {rest : List Nat}
    (chain : IsChain file (offset :: rest)) : offset + 32 ≤ file.length := by
  cases rest with
  | nil => exact chain.1
  | cons next rest => exact chain.1

/-- The blocks behind the first one are a chain. -/
theorem IsChain.tail {file : List UInt8} {offset next : Nat} {rest : List Nat}
    (chain : IsChain file (offset :: next :: rest)) : IsChain file (next :: rest) :=
  chain.2.2.2

/-- A chain stays one in a longer file in which its headers are as they were. -/
theorem IsChain.kept {file after : List UInt8} {blocks : List Nat} (chain : IsChain file blocks)
    (longer : file.length ≤ after.length)
    (same : ∀ offset ∈ blocks, headAt after offset = headAt file offset) : IsChain after blocks := by
  induction blocks with
  | nil => exact chain.elim
  | cons offset rest ih =>
    have here := same offset List.mem_cons_self
    cases rest with
    | nil => exact ⟨chain.1.trans longer, by rw [here]; exact chain.2⟩
    | cons next rest =>
      have later := ih chain.tail fun other among => same other (List.mem_cons_of_mem _ among)
      exact ⟨chain.1.trans longer, chain.2.1, by rw [here]; exact chain.2.2.1, later⟩

/-- Headers that are alike give the same capacity. -/
theorem capacity_alike {htable : RndHeadTable} {first second : InfoBlock}
    (alike : first.Alike second) :
    flatrecsGetRecordCapacity htable first = flatrecsGetRecordCapacity htable second := by
  rw [flatrecsGetRecordCapacity, flatrecsGetRecordCapacity, alike.size, alike.data]

/-! ## Record numbers of a search -/

section Numbers

variable {htable : RndHeadTable} {recno : UInt32} {search : Search}

/-- The first record number of the current block is not past the record. -/
def Search.Behind (recno : UInt32) (search : Search) : Prop :=
  search.startRec.toNat ≤ recno.toNat

/-- A block covers a record whose place in it is below its capacity. -/
theorem covers_iff (behind : search.Behind recno) :
    search.Covers htable recno ↔
      recno.toNat - search.startRec.toNat <
        (flatrecsGetRecordCapacity htable search.iblock).toNat := by
  rw [Search.Covers, UInt32.lt_iff_toNat_lt, UInt32.toNat_sub_of_le _ _ behind]

/-- Behind a block that does not contain the record, record numbers do not wrap. -/
theorem advanced_start (behind : search.Behind recno) (beyond : ¬ search.Covers htable recno) :
    (search.advanced htable).startRec.toNat =
      search.startRec.toNat + (flatrecsGetRecordCapacity htable search.iblock).toNat := by
  have room : ¬ recno.toNat - search.startRec.toNat <
      (flatrecsGetRecordCapacity htable search.iblock).toNat := fun less =>
    beyond ((covers_iff behind).mpr less)
  have bound := recno.toNat_lt
  have before : search.startRec.toNat ≤ recno.toNat := behind
  rw [Search.advanced, UInt32.toNat_add, Nat.mod_eq_of_lt (by omega)]

/-- A search that leaves a block is still in front of its record. -/
theorem advanced_behind (behind : search.Behind recno) (beyond : ¬ search.Covers htable recno) :
    (search.advanced htable).Behind recno := by
  have room : ¬ recno.toNat - search.startRec.toNat <
      (flatrecsGetRecordCapacity htable search.iblock).toNat := fun less =>
    beyond ((covers_iff behind).mpr less)
  have before : search.startRec.toNat ≤ recno.toNat := behind
  rw [Search.Behind, advanced_start behind beyond]
  omega

end Numbers

/-! ## Walking a chain -/

section Walk

variable {memory : Nat → Nat → UInt8} {file : List UInt8} {handle : Rndh} {bloc : BlockLoc}
variable {htable : RndHeadTable} {recno : UInt32}

/-- The search stands at a block, with a copy of its header and its first record
number. -/
structure StandsAt (file : List UInt8) (offset first : Nat) (search : Search) : Prop where
  head : search.iblock.Alike (headAt file offset)
  place : search.iblockOffset = offset
  start : search.startRec.toNat = first

/-- The search loop from a given state. -/
abbrev searchFrom (fuel : Nat) (handle : Rndh) (bloc : BlockLoc) (htable : RndHeadTable)
    (recno : UInt32) (search : Search) : Prog (RndError × OffT) :=
  iterate .fuel (searchRound handle bloc htable recno) fuel search

/-- A search that stands at a block knows its capacity. -/
theorem StandsAt.capacity {offset first : Nat} {search : Search}
    (stands : StandsAt file offset first search) :
    (flatrecsGetRecordCapacity htable search.iblock).toNat = capacityAt file htable offset := by
  rw [capacityAt, capacity_alike stands.head]

/-- From any state with the first file, some rounds of the search pass these
events and stand at another state with the second file, whatever fuel is left. -/
def Moves (memory : Nat → Nat → UInt8) (handle : Rndh) (bloc : BlockLoc) (htable : RndHeadTable)
    (recno : UInt32) (before : List UInt8 × Search) (rounds : Nat) (past : List Event)
    (behind : List UInt8 × Search) : Prop :=
  ∀ world, world.file = before.1 → ∃ world', world'.file = behind.1 ∧ ∀ fuel,
    run (smooth memory) (searchFrom (fuel + rounds) handle bloc htable recno before.2) world =
      run (smooth memory) (searchFrom fuel handle bloc htable recno behind.2) world' ∧
    events (log (smooth memory) (searchFrom (fuel + rounds) handle bloc htable recno before.2)
      world) =
      past ++ events (log (smooth memory) (searchFrom fuel handle bloc htable recno behind.2) world')

/-- No round leaves everything. -/
theorem Moves.refl (here : List UInt8 × Search) :
    Moves memory handle bloc htable recno here 0 [] here :=
  fun world same => ⟨world, same, fun _ => ⟨rfl, rfl⟩⟩

/-- Rounds in a row. -/
theorem Moves.trans {first second third : List UInt8 × Search} {rounds rounds' : Nat}
    {past past' : List Event} (one : Moves memory handle bloc htable recno first rounds past second)
    (two : Moves memory handle bloc htable recno second rounds' past' third) :
    Moves memory handle bloc htable recno first (rounds + rounds') (past ++ past') third := by
  intro world same
  obtain ⟨world', same', one⟩ := one world same
  obtain ⟨world'', same'', two⟩ := two world' same'
  refine ⟨world'', same'', fun fuel => ?_⟩
  obtain ⟨runOne, logOne⟩ := one (fuel + rounds')
  obtain ⟨runTwo, logTwo⟩ := two fuel
  rw [← Nat.add_assoc, Nat.add_right_comm, runOne, logOne, runTwo, logTwo, List.append_assoc]
  exact ⟨rfl, rfl⟩

/-- A round that goes on is a move. -/
theorem Moves.of_round {search there : Search} {after : List UInt8} {past : List Event}
    (round : OnFile memory file (searchRound handle bloc htable recno search)
      fun outcome final passed => outcome = .inl there ∧ final = after ∧ passed = past) :
    Moves memory handle bloc htable recno (file, search) 1 past (after, there) := by
  intro world same
  obtain ⟨outcome, world', completed, rfl, same', passed⟩ := round world same
  refine ⟨world', same', fun fuel => ⟨run_iterate_inl _ completed fuel, ?_⟩⟩
  rw [searchFrom, iterate_succ, log_bind_ok _ completed, events_append, passed]

/-- What holds from where a move stands holds from where it started. -/
theorem OnFile.of_moves {search there : Search} {after : List UInt8} {rounds fuel : Nat}
    {past : List Event} {post : RndError × OffT → List UInt8 → List Event → Prop}
    (moves : Moves memory handle bloc htable recno (file, search) rounds past (after, there))
    (second : OnFile memory after (searchFrom fuel handle bloc htable recno there)
      fun result final later => post result final (past ++ later)) :
    OnFile memory file (searchFrom (fuel + rounds) handle bloc htable recno search) post := by
  intro world same
  obtain ⟨world', same', moves⟩ := moves world same
  obtain ⟨result, final, completed, holds⟩ := second world' same'
  obtain ⟨runs, logs⟩ := moves fuel
  refine ⟨result, final, runs.trans completed, ?_⟩
  change post result final.file (events _)
  rw [logs]
  exact holds

/-- A round that finds the record ends the search. -/
theorem searchFrom_found {fuel : Nat} {search : Search} {post : RndError × OffT → List UInt8 →
    List Event → Prop} (covered : search.Covers htable recno)
    (holds : post (.success, foundOffset bloc htable recno search) file []) :
    OnFile memory file (searchFrom (fuel + 1) handle bloc htable recno search) post := by
  rw [searchFrom, iterate_succ, searchRound_found covered]
  exact OnFile.ret holds

/-- Whether the record is in the current block, in plain numbers. -/
theorem StandsAt.covers_iff {offset first : Nat} {search : Search}
    (stands : StandsAt file offset first search) (behind : search.Behind recno) :
    search.Covers htable recno ↔ recno.toNat - first < capacityAt file htable offset := by
  rw [Recnodb.covers_iff behind, stands.capacity, stands.start]

/-- A round inside the chain moves to the next block. -/
theorem moves_next {search : Search} {offset first next : Nat} {rest : List Nat}
    (chain : IsChain file (offset :: next :: rest)) (stands : StandsAt file offset first search)
    (behind : search.Behind recno) (beyond : ¬ search.Covers htable recno) :
    ∃ there, StandsAt file next (first + capacityAt file htable offset) there ∧
      there.Behind recno ∧
      Moves memory handle bloc htable recno (file, search) 1 [] (file, there) := by
  have link : search.iblock.nextBlock.offset = next := stands.head.next.trans chain.2.2.1
  have more : search.iblock.nextBlock.offset ≠ 0 := by
    rw [link]
    exact_mod_cast chain.2.1
  refine ⟨⟨headAt file next, next, (search.advanced htable).startRec⟩,
    ⟨InfoBlock.Alike.refl _, rfl, ?_⟩, advanced_behind behind beyond, Moves.of_round ?_⟩
  · rw [advanced_start behind beyond, stands.capacity, stands.start]
  · rw [searchRound_next beyond more, link]
    exact OnFile.bind_eq (OnFile.seekRead chain.tail.head_inside) (OnFile.ret ⟨rfl, rfl, rfl⟩)

/-- A record of the current block is located in the first segment. -/
theorem StandsAt.located_here {offset first segment place : Nat} {search : Search}
    {blocks : List Nat} (stands : StandsAt file offset first search)
    (behind : search.Behind recno) (covered : search.Covers htable recno)
    (located : Segments.locate (capacities file htable (offset :: blocks))
      (recno.toNat - first) = some (segment, place)) :
    segment = 0 ∧ StandsAt file offset (recno.toNat - place) search := by
  have before : first ≤ recno.toNat := stands.start ▸ behind
  rw [capacities_cons, Segments.locate_here _ ((stands.covers_iff behind).mp covered)] at located
  obtain ⟨rfl, rfl⟩ := Prod.mk.inj (Option.some.inj located)
  exact ⟨rfl, by rwa [Nat.sub_sub_self before]⟩

/-- Any other record is located behind it. -/
theorem StandsAt.located_behind {offset first segment place : Nat} {search : Search}
    {blocks : List Nat} (stands : StandsAt file offset first search)
    (behind : search.Behind recno) (beyond : ¬ search.Covers htable recno)
    (located : Segments.locate (capacities file htable (offset :: blocks))
      (recno.toNat - first) = some (segment, place)) :
    ∃ later, segment = later + 1 ∧ Segments.locate (capacities file htable blocks)
      (recno.toNat - (first + capacityAt file htable offset)) = some (later, place) := by
  have passed := Nat.not_lt.mp (mt (stands.covers_iff behind).mpr beyond)
  rw [capacities_cons, Segments.locate_past _ passed, Option.map_eq_some_iff, Nat.sub_sub] at located
  obtain ⟨⟨later, place'⟩, located, pair⟩ := located
  obtain ⟨rfl, rfl⟩ := Prod.mk.inj pair
  exact ⟨later, rfl, located⟩

/-- The walk to the block that contains the record. -/
theorem walk_found {blocks : List Nat} {offset first place segment : Nat} {search : Search}
    (chain : IsChain file (offset :: blocks)) (stands : StandsAt file offset first search)
    (behind : search.Behind recno)
    (located : Segments.locate (capacities file htable (offset :: blocks))
      (recno.toNat - first) = some (segment, place)) :
    ∃ there target, (offset :: blocks)[segment]? = some target ∧
      StandsAt file target (recno.toNat - place) there ∧ there.Behind recno ∧
      there.Covers htable recno ∧
      Moves memory handle bloc htable recno (file, search) segment [] (file, there) := by
  induction blocks generalizing offset first search segment with
  | nil =>
    by_cases covered : search.Covers htable recno
    · obtain ⟨rfl, here⟩ := stands.located_here behind covered located
      exact ⟨search, offset, rfl, here, behind, covered, Moves.refl _⟩
    · obtain ⟨later, -, none⟩ := stands.located_behind behind covered located
      simp [Segments.locate] at none
  | cons next rest ih =>
    by_cases covered : search.Covers htable recno
    · obtain ⟨rfl, here⟩ := stands.located_here behind covered located
      exact ⟨search, offset, rfl, here, behind, covered, Moves.refl _⟩
    · obtain ⟨later, rfl, locatedThere⟩ := stands.located_behind behind covered located
      obtain ⟨there, standsThere, behindThere, moved⟩ :=
        @moves_next memory _ handle bloc _ _ _ _ _ _ _
        chain stands behind covered
      obtain ⟨goal, target, found, standsGoal, behindGoal, coveredGoal, moves⟩ :=
        ih chain.tail standsThere behindThere locatedThere
      refine ⟨goal, target, by simpa using found, standsGoal, behindGoal, coveredGoal, ?_⟩
      rw [Nat.add_comm]
      exact moved.trans moves

/-- The walk past every block of the chain stands at the last one. -/
theorem walk_end {blocks : List Nat} {offset first : Nat} {search : Search}
    (chain : IsChain file (offset :: blocks)) (stands : StandsAt file offset first search)
    (past : first + (capacities file htable (offset :: blocks)).sum ≤ recno.toNat) :
    ∃ there last start, (offset :: blocks).getLast? = some last ∧
      start + capacityAt file htable last =
        first + (capacities file htable (offset :: blocks)).sum ∧
      StandsAt file last start there ∧ there.Behind recno ∧ ¬ there.Covers htable recno ∧
      Moves memory handle bloc htable recno (file, search) blocks.length [] (file, there) := by
  have behind : search.Behind recno := by
    rw [Search.Behind, stands.start]
    omega
  have beyond : ¬ search.Covers htable recno := by
    rw [stands.covers_iff behind]
    simp only [capacities_cons, List.sum_cons] at past
    omega
  induction blocks generalizing offset first search with
  | nil => exact ⟨search, offset, first, rfl, by simp, stands, behind, beyond, Moves.refl _⟩
  | cons next rest ih =>
    obtain ⟨there, standsThere, behindThere, moved⟩ := @moves_next memory _ handle bloc _ _ _ _ _ _ _
      chain stands behind beyond
    have remaining : first + capacityAt file htable offset +
        (capacities file htable (next :: rest)).sum ≤ recno.toNat := by
      simpa [Nat.add_assoc] using past
    have beyondThere : ¬ there.Covers htable recno := by
      rw [standsThere.covers_iff behindThere]
      simp only [capacities_cons, List.sum_cons] at remaining
      omega
    obtain ⟨goal, last, start, isLast, total, standsLast, behindLast, beyondLast, moves⟩ :=
      ih chain.tail standsThere remaining behindThere beyondThere
    refine ⟨goal, last, start, by simpa using isLast, by simpa [Nat.add_assoc] using total,
      standsLast, behindLast, beyondLast, ?_⟩
    rw [List.length_cons, Nat.add_comm]
    exact moved.trans moves

/-- The last block of a chain has no link, and its header lies inside the file. -/
theorem IsChain.last {blocks : List Nat} {offset last : Nat} (chain : IsChain file (offset :: blocks))
    (isLast : (offset :: blocks).getLast? = some last) :
    last + 32 ≤ file.length ∧ (headAt file last).nextBlock.offset = 0 := by
  induction blocks generalizing offset with
  | nil =>
    obtain rfl : offset = last := by simpa using isLast
    exact chain
  | cons next rest ih => exact ih chain.tail (by simpa using isLast)

/-- A block starts one chain. -/
theorem IsChain.unique {offset : Nat} {rest rest' : List Nat} (one : IsChain file (offset :: rest))
    (other : IsChain file (offset :: rest')) : rest = rest' := by
  induction rest generalizing offset rest' with
  | nil =>
    cases rest' with
    | nil => rfl
    | cons next' rest' =>
      have none : (next' : OffT) = 0 := other.2.2.1.symm.trans one.2
      exact absurd (Int.natCast_eq_zero.mp none) other.2.1
  | cons next rest ih =>
    cases rest' with
    | nil =>
      have none : (next : OffT) = 0 := one.2.2.1.symm.trans other.2
      exact absurd (Int.natCast_eq_zero.mp none) one.2.1
    | cons next' rest' =>
      obtain rfl : next = next' := Int.natCast_inj.mp (one.2.2.1.symm.trans other.2.2.1)
      rw [ih one.tail other.tail]

/-- The events of a search are those of its first round and of the rest. -/
theorem events_round {fuel : Nat} {search there : Search} {world world' : World}
    (completed : run (smooth memory) (searchRound handle bloc htable recno search) world =
      (.ok (.inl there), world')) :
    events (log (smooth memory) (searchFrom (fuel + 1) handle bloc htable recno search) world) =
      events (log (smooth memory) (searchRound handle bloc htable recno search) world) ++
        events (log (smooth memory) (searchFrom fuel handle bloc htable recno there) world') := by
  rw [searchFrom, iterate_succ, log_bind_ok _ completed, events_append]

/-- A search that stands at the record passes no event. -/
theorem events_covered {fuel : Nat} {search : Search} (covered : search.Covers htable recno)
    (world : World) :
    events (log (smooth memory) (searchFrom fuel handle bloc htable recno search) world) = [] := by
  cases fuel with
  | zero => rfl
  | succ fuel =>
    rw [searchFrom, iterate_succ, searchRound_found covered]
    rfl

end Walk

end Recnodb
