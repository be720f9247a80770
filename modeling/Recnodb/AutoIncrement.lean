import Recnodb.Addressing
import Recnodb.ChainFaults
import Recnodb.Creation
import Recnodb.Handovers

/-!
# Runs that count records up

Calls for the next offset of a new table, one after another, with a user callback
that takes the number and writes its record. As long as the root holds the next
record, nothing is extended: the slot is the next one in the root. The first record
behind the root is put into a block of no bytes, at an offset counted from the start
of the file, or, when the extension fails, into the slot of the first record.
-/

namespace Recnodb

open Interaction Octets Program

/-- Every byte outside the range is kept, and none is added behind it. -/
structure WritesWithin (offset : OffT) (width : Nat) (file after : List UInt8) : Prop where
  longer : file.length ≤ after.length
  outside : ∀ index : Nat, (index < file.length ∧ (index : OffT) < offset) ∨
    offset + width ≤ index → after[index]? = file[index]?

/-- A user callback that adds one to the last record number, writes inside its slot
only and asks for the write-back. -/
def Increments (platform : Platform) (user : FlatrecsUseNewRecord) : Prop :=
  ∀ handle htable offset file, UnderFaults platform file (user handle htable offset)
    fun answer after past => past = [] ∧
      answer = (true, htable.numbered (htable.thead.lastRecno + 1)) ∧
      WritesWithin offset (slotSize htable) file after

/-- Successful calls for the next offset of the table at the start of the file, one
after another, and the moments they pass. Calls may fail in them, but lose nothing that the
stream has taken. -/
inductive SuccessfulCalls (platform : Platform) (handle : Rndh) (user : FlatrecsUseNewRecord) :
    World → Nat → List (Moment Call Answer World) → World → Prop where
  | none (world : World) : SuccessfulCalls platform handle user world 0 [] world
  | more {fuel count : Nat} {world middle final : World} {later : List (Moment Call Answer World)}
      (completed : run (posix platform) (flatrecsGetNextOffset fuel handle (0 : Nat) user) world =
        (.ok .success, middle))
      (kept : Lossless platform
        (log (posix platform) (flatrecsGetNextOffset fuel handle (0 : Nat) user) world))
      (rest : SuccessfulCalls platform handle user middle count later final) :
      SuccessfulCalls platform handle user world (count + 1)
        (log (posix platform) (flatrecsGetNextOffset fuel handle (0 : Nat) user) world ++ later) final

/-- The slot shares no byte with a range. -/
def Handover.Clear (width : Nat) (slot : Handover) (start : OffT) (length : Nat) : Prop :=
  slot.offset + width ≤ start ∨ start + length ≤ slot.offset

/-- It does so as numbers say. -/
theorem Handover.clear_iff {slot : Handover} {place width start length : Nat}
    (here : slot.offset = place) :
    slot.Clear width (start : OffT) length ↔ place + width ≤ start ∨ start + length ≤ place := by
  rw [Handover.Clear, here, ← Int.natCast_add, ← Int.natCast_add, Int.ofNat_le, Int.ofNat_le]

/-- The slots handed over in a run of that many calls: one for each call, inside the
file, apart from each other, from the header of the table and from the header of
every block that was added. -/
structure NeverCollide (width count : Nat) (past : List (Moment Call Answer World)) : Prop where
  handed : (handovers past).length = count
  inside : ∀ slot ∈ handovers past, 0 ≤ slot.offset ∧ slot.offset + width ≤ slot.fileLength
  apart : (handovers past).Pairwise fun one other => one.Clear width other.offset width
  table : ∀ slot ∈ handovers past, slot.Clear width 0 sizeofHeadFile
  blocks : ∀ newBlock, .appendLeft .success newBlock ∈ events past →
    ∀ slot ∈ handovers past, slot.Clear width newBlock.offset sizeofInfoBlock

/-- The number of whole slots behind the header of a new file. -/
def rootRoom (chunkSize recSize : UInt32) : Nat := (chunkSize.toNat - 72) / (recSize.toNat + 1)

/-! ## A table that was counted up in its root -/

section Counted

variable {platform : Platform} {file : List UInt8} {handle : Rndh} {fuel count : Nat}
variable {chunkSize recSize : UInt32} {user : FlatrecsUseNewRecord}

/-- The file has the length of its root, whose header names that many records. -/
structure Counted (chunkSize recSize : UInt32) (count : Nat) (file : List UInt8) : Prop where
  length : file.length = chunkSize.toNat
  head : slice file 0 64 = ((freshTable chunkSize recSize).numbered (UInt32.ofNat count)).toBytes

/-- A new table names no record. -/
theorem counted_fresh (large : 72 ≤ chunkSize.toNat) (recSize : UInt32) :
    Counted chunkSize recSize 0 (freshFile chunkSize recSize) := by
  constructor
  · exact freshFile_length large recSize
  · rw [freshFile_front (by omega)]
    have parts : (freshHead chunkSize recSize).toBytes =
        ((freshTable chunkSize recSize).numbered 0).toBytes ++
          (freshHead chunkSize recSize).fhead.toBytes := by
      simp only [RndHeadFile.toBytes, RndHeadTable.toBytes, List.append_assoc]
      rfl
    rw [parts]
    exact slice_field_first (RndHeadTable.toBytes_length _)

/-- The header that a locked area reads. -/
theorem Counted.htable (counted : Counted chunkSize recSize count file) :
    htableAt file 0 = (freshTable chunkSize recSize).numbered (UInt32.ofNat count) := by
  have fits : BlockLoc.Fits ⟨(0 : Nat), (0 : Nat)⟩ := BlockLoc.fits_of_lt (by decide) (by decide)
  rw [htableAt, counted.head]
  exact RndHeadTable.ofBytes_toBytes fits
    (by decide +kernel : InfoChain.ofBytes (InfoChain.toBytes ⟨0, 0, 0⟩) = ⟨0, 0, 0⟩)

theorem Counted.bhead (counted : Counted chunkSize recSize count file) :
    headAt file 0 = (freshHead chunkSize recSize).bhead := by
  rw [← htableAt_bhead, counted.htable]
  rfl

/-- The slot size, as the source computes it. -/
theorem recsize_numbered (small : recSize.toNat + 1 < 2 ^ 32) (chunkSize lastRecno : UInt32) :
    (flatrecsFullRecsize ((freshTable chunkSize recSize).numbered lastRecno)).toNat =
      recSize.toNat + 1 := by
  rw [flatrecsFullRecsize, UInt32.toNat_add]
  exact Nat.mod_eq_of_lt small

/-- The capacity of the root, as the source computes it. -/
theorem rootRoom_eq (large : 72 ≤ chunkSize.toNat) (small : recSize.toNat + 1 < 2 ^ 32)
    (lastRecno : UInt32) :
    (flatrecsGetRecordCapacity ((freshTable chunkSize recSize).numbered lastRecno)
      (freshHead chunkSize recSize).bhead).toNat = rootRoom chunkSize recSize := by
  have recsize := recsize_numbered small chunkSize lastRecno
  have positive : flatrecsFullRecsize ((freshTable chunkSize recSize).numbered lastRecno) > 0 := by
    rw [gt_iff_lt, UInt32.lt_iff_toNat_lt, recsize]
    exact Nat.succ_pos _
  have payload : ((freshHead chunkSize recSize).bhead.blockSize -
      (freshHead chunkSize recSize).bhead.bytesToData.toUInt32).toNat = chunkSize.toNat - 72 :=
    UInt32.toNat_sub_of_le _ _ (UInt32.le_iff_toNat_le.mpr large)
  rw [flatrecsGetRecordCapacity, if_pos positive, UInt32.toNat_div, recsize, payload, rootRoom]

/-- Where the root has room, the record size does not wrap, and numbers are small. -/
theorem small_of_room (room : count < rootRoom chunkSize recSize) :
    recSize.toNat + 1 < 2 ^ 32 ∧ count + 1 < 2 ^ 32 ∧
      72 + count * (recSize.toNat + 1) + (recSize.toNat + 1) ≤ chunkSize.toNat := by
  have cell := Segments.cell_inside room
  have bound := chunkSize.toNat_lt
  have low : count ≤ count * (recSize.toNat + 1) := Nat.le_mul_of_pos_right _ (Nat.succ_pos _)
  omega

/-- The search for the next record of a counted table. -/
abbrev nextSearch (fuel : Nat) (handle : Rndh) (file : List UInt8) : Prog (RndError × OffT) :=
  flatrecsMakeOffsetToRecno fuel handle ⟨(0 : Nat), sizeofHeadTable⟩ (htableAt file 0)
    (nextRecno file 0)

/-- The next record number, less the first one. -/
theorem Counted.local_index (counted : Counted chunkSize recSize count file) :
    nextRecno file 0 - 1 = UInt32.ofNat count := by
  rw [nextRecno, UInt32.add_sub_cancel, counted.htable]
  rfl

/-- While the root has room, the search answers with the next slot in the root. -/
theorem Counted.search_root (counted : Counted chunkSize recSize count file)
    (large : 72 ≤ chunkSize.toNat) (room : count < rootRoom chunkSize recSize) :
    UnderFaults platform file (nextSearch fuel handle file)
      fun result after past => result = (.success, ↑(72 + count * (recSize.toNat + 1))) ∧
        after = file ∧ past = [] := by
  obtain ⟨small, number, ends⟩ := small_of_room room
  have bound := chunkSize.toNat_lt
  have index : (UInt32.ofNat count).toNat = count := by
    rw [UInt32.toNat_ofNat']
    exact Nat.mod_eq_of_lt (by omega)
  have bhead : (htableAt file 0).bhead = (freshHead chunkSize recSize).bhead := by
    rw [htableAt_bhead, counted.bhead]
  have covered : Search.Covers (htableAt file 0) (nextRecno file 0)
      ⟨(htableAt file 0).bhead, (0 : Nat), 1⟩ := by
    rw [Search.Covers, counted.local_index, bhead, counted.htable, UInt32.lt_iff_toNat_lt,
      rootRoom_eq large small, index]
    exact room
  refine (search_here covered).mono ?_
  rintro result after past ⟨rfl, rfl, rfl⟩
  refine ⟨congrArg (Prod.mk _) ?_, rfl, rfl⟩
  have slot : (UInt32.ofNat count * flatrecsFullRecsize (htableAt after 0)).toNat =
      count * (recSize.toNat + 1) := by
    rw [counted.htable, UInt32.toNat_mul, index, recsize_numbered small,
      Nat.mod_eq_of_lt (by omega)]
  rw [foundOffset, counted.local_index, slot, bhead]
  push_cast
  simp [freshHead]

/-- A write inside a slot inside the file keeps its length. -/
theorem WritesWithin.length {after : List UInt8} {start width : Nat}
    (within : WritesWithin start width file after) (inside : start + width ≤ file.length) :
    after.length = file.length := by
  have none : after[file.length]? = none := by
    rw [within.outside file.length (.inr (by exact_mod_cast inside))]
    exact List.getElem?_eq_none (Nat.le_refl _)
  exact Nat.le_antisymm (List.getElem?_eq_none_iff.mp none) within.longer

/-- The table as it is behind a write inside the next slot and the write-back. -/
theorem Counted.advance {middle : List UInt8} (counted : Counted chunkSize recSize count file)
    (room : count < rootRoom chunkSize recSize)
    (within : WritesWithin ↑(72 + count * (recSize.toNat + 1)) (recSize.toNat + 1) file middle) :
    Counted chunkSize recSize (count + 1) (patch middle 0
      ((htableAt file 0).numbered ((htableAt file 0).thead.lastRecno + 1)).toBytes) := by
  obtain ⟨small, number, ends⟩ := small_of_room room
  have same : middle.length = file.length := within.length (by rw [counted.length]; omega)
  have length := counted.length
  constructor
  · rw [patch_length_inside, same, length]
    rw [RndHeadTable.toBytes_length, same, length]
    omega
  · have whole := slice_patch_same middle 0
      ((htableAt file 0).numbered ((htableAt file 0).thead.lastRecno + 1)).toBytes
    rw [RndHeadTable.toBytes_length] at whole
    have next : (UInt32.ofNat count + 1) = UInt32.ofNat (count + 1) := (UInt32.ofNat_add _ _).symm
    rw [whole, counted.htable, ← next]
    rfl

/-- A successful call while the root has room. -/
theorem Counted.call (counted : Counted chunkSize recSize count file)
    (large : 72 ≤ chunkSize.toNat) (room : count < rootRoom chunkSize recSize)
    (increments : Increments platform user) :
    UnderFaults platform file (flatrecsGetNextOffset fuel handle (0 : Nat) user)
      fun rval after past => rval = .success → Counted chunkSize recSize (count + 1) after ∧
        past = [.numbered (nextRecno file 0),
          .handed (nextRecno file 0) ↑(72 + count * (recSize.toNat + 1)), .answered true] := by
  refine getNextOffset_success fun _ => (counted.search_root large room).mono ?_
  rintro result middle past ⟨rfl, rfl, rfl⟩
  refine ⟨fun failed => absurd rfl failed, fun _ => ?_⟩
  refine (increments handle (htableAt middle 0) _ middle).mono ?_
  rintro answer after later ⟨rfl, rfl, within⟩
  have size : slotSize (htableAt middle 0) = recSize.toNat + 1 := by
    rw [counted.htable]
    rfl
  rw [size] at within
  exact ⟨counted.advance room within, rfl⟩

/-- What it hands over. -/
theorem Counted.call_handovers {world after : World}
    (lossless : Lossless platform
      (log (posix platform) (flatrecsGetNextOffset fuel handle (0 : Nat) user) world))
    (counted : Counted chunkSize recSize count world.file)
    (large : 72 ≤ chunkSize.toNat) (room : count < rootRoom chunkSize recSize)
    (increments : Increments platform user)
    (completed : run (posix platform) (flatrecsGetNextOffset fuel handle (0 : Nat) user) world =
      (.ok .success, after)) :
    handovers (log (posix platform) (flatrecsGetNextOffset fuel handle (0 : Nat) user) world) =
      [⟨↑(72 + count * (recSize.toNat + 1)), chunkSize.toNat⟩] := by
  have silent : Silent platform user := fun handle htable offset file =>
    (increments handle htable offset file).mono fun _ _ _ made => made.1
  obtain ⟨-, passed⟩ := counted.call large room increments world rfl _ _ completed lossless rfl
  have offsets := handovers_offsets
    (log (posix platform) (flatrecsGetNextOffset fuel handle (0 : Nat) user) world)
  rw [passed] at offsets
  obtain ⟨slot, only, place⟩ := List.map_eq_singleton_iff.mp offsets
  obtain ⟨before, searched, same, searchRun, spared, length⟩ :=
    getNextOffset_hands silent world rfl _ _
    completed lossless slot (by rw [only]; exact List.mem_singleton_self _)
  obtain ⟨-, kept, -⟩ := counted.search_root large room before same _ _ searchRun spared
  have here : slot = ⟨↑(72 + count * (recSize.toNat + 1)), chunkSize.toNat⟩ := by
    obtain ⟨offset, fileLength⟩ := slot
    rw [kept, counted.length] at length
    exact congrArg₂ Handover.mk place length
  rw [only, here]

end Counted

/-! ## The first record behind the root -/

section Behind

variable {platform : Platform} {file : List UInt8} {handle : Rndh} {bloc : BlockLoc}
variable {htable : RndHeadTable} {recno : UInt32} {search : Search} {root last : Nat}
variable {before : List Nat}

/-- What a search delivers that has reached the number of its record at the end of
the chain: the start of the payload, counted from the root, of the block it stands
at or of one that it added. -/
def FoundFirst (bloc : BlockLoc) (htable : RndHeadTable) (block : InfoBlock)
    (result : RndError × OffT) : Prop :=
  result.1 = .success → result.2 = bloc.offset + 32 ∨
    result.2 = bloc.offset + block.bytesToData.toNat ∧ 0 < flatrecsGetRecordCapacity htable block

/-- Where the search goes on, it finds no less. -/
theorem Search.Resumed.found {next : Search} {result : RndError × OffT}
    (resumed : search.Resumed handle htable recno next)
    (found : FoundFirst bloc htable next.iblock result) :
    FoundFirst bloc htable search.iblock result := by
  intro success
  rcases found success with added | ⟨place, some⟩
  · exact .inl added
  · rcases resumed.block with same | new
    · rw [same] at place some
      exact .inr ⟨place, some⟩
    · rw [new] at place
      exact .inl place

/-- A search that goes on behind the last block finds what the rounds that follow find. -/
theorem search_goes_on (fuel : Nat) (threaded : Threaded file root (before ++ [last]))
    (place : search.iblockOffset = last) (free : search.iblock.nextBlock.offset = 0)
    (beyond : ¬ search.Covers htable recno)
    (onward : ∀ (file : List UInt8) (before : List Nat) (last : Nat) (next : Search),
      Threaded file root (before ++ [last]) → next.iblockOffset = last →
      next.iblock.nextBlock.offset = 0 →
      next.startRec = search.startRec + flatrecsGetRecordCapacity htable search.iblock →
      UnderFaults platform file (searchFrom fuel handle bloc htable recno next)
        fun result _ _ => FoundFirst bloc htable next.iblock result) :
    UnderFaults platform file (searchFrom (fuel + 1) handle bloc htable recno search)
      fun result _ _ => FoundFirst bloc htable search.iblock result := by
  apply searchFrom_faults
  have stillThere : (search.advanced htable).iblockOffset = last := place
  rw [searchRound_end beyond free]
  refine (extendForRecord_threads threaded stillThere).mono ?_
  rintro outcome after past ⟨-, bad, before', last', kept, delivered⟩
  cases outcome with
  | inl next =>
    obtain ⟨there, resumed⟩ := delivered next rfl
    exact (onward after before' last' next kept.threaded there (resumed.unlinked free)
      resumed.start).mono fun result _ _ found => resumed.found found
  | inr result => exact fun success => absurd success (bad result.1 result.2 rfl)

/-- A search that has reached the number of its record. -/
theorem search_at_number (fuel : Nat) (threaded : Threaded file root (before ++ [last]))
    (place : search.iblockOffset = last) (free : search.iblock.nextBlock.offset = 0)
    (number : search.startRec = recno) :
    UnderFaults platform file (searchFrom fuel handle bloc htable recno search)
      fun result _ _ => FoundFirst bloc htable search.iblock result := by
  induction fuel generalizing file search before last with
  | zero => exact UnderFaults.stop _
  | succ fuel ih =>
    have index : recno - search.startRec = 0 := by rw [number, UInt32.sub_self]
    by_cases covered : search.Covers htable recno
    · apply searchFrom_faults
      rw [searchRound_found covered]
      refine UnderFaults.ret fun _ => .inr ⟨?_, ?_⟩
      · rw [foundOffset, index, UInt32.zero_mul]
        simp
      · rwa [Search.Covers, index] at covered
    · have empty : flatrecsGetRecordCapacity htable search.iblock = 0 := by
        rw [Search.Covers, index] at covered
        exact UInt32.le_zero_iff.mp (UInt32.not_lt.mp covered)
      apply search_goes_on fuel threaded place free covered
      intro file' before' last' next threaded' there unlinked start
      rw [empty, UInt32.add_zero, number] at start
      exact ih threaded' there unlinked start

/-- A search that reaches the number of its record behind the block it starts at. -/
theorem search_reaches_number (fuel : Nat) (threaded : Threaded file root (before ++ [last]))
    (place : search.iblockOffset = last) (free : search.iblock.nextBlock.offset = 0)
    (beyond : ¬ search.Covers htable recno)
    (number : search.startRec + flatrecsGetRecordCapacity htable search.iblock = recno) :
    UnderFaults platform file (searchFrom fuel handle bloc htable recno search)
      fun result _ _ => FoundFirst bloc htable search.iblock result := by
  cases fuel with
  | zero => exact UnderFaults.stop _
  | succ fuel =>
    apply search_goes_on fuel threaded place free beyond
    intro file' before' last' next threaded' there unlinked start
    exact search_at_number fuel threaded' there unlinked (start.trans number)

end Behind

/-! ## Runs -/

section Runs

variable {platform : Platform} {handle : Rndh} {user : FlatrecsUseNewRecord}
variable {chunkSize recSize : UInt32} {world final : World} {count calls : Nat}
variable {past : List (Moment Call Answer World)}

/-- The slot of a record in the root. -/
def rootSlot (chunkSize recSize : UInt32) (place : Nat) : Handover :=
  ⟨↑(72 + place * (recSize.toNat + 1)), chunkSize.toNat⟩

/-- Calls while the root has room: the slots in the root in order, and no block. -/
theorem SuccessfulCalls.in_root (large : 72 ≤ chunkSize.toNat) (increments : Increments platform user)
    (run : SuccessfulCalls platform handle user world calls past final)
    (counted : Counted chunkSize recSize count world.file)
    (room : count + calls ≤ rootRoom chunkSize recSize) :
    Counted chunkSize recSize (count + calls) final.file ∧
      handovers past = (List.range' count calls).map (rootSlot chunkSize recSize) ∧
      ∀ rval newBlock, .appendLeft rval newBlock ∉ events past := by
  induction run generalizing count with
  | none world => exact ⟨counted, rfl, fun _ _ => List.not_mem_nil⟩
  | @more fuel calls world middle final later completed kept rest ih =>
    have below : count < rootRoom chunkSize recSize := by omega
    obtain ⟨counted', passed⟩ := counted.call large below increments world rfl _ _ completed kept rfl
    have handed := counted.call_handovers kept large below increments completed
    obtain ⟨counted'', slots, quiet⟩ := ih counted' (by omega)
    refine ⟨?_, ?_, ?_⟩
    · rw [Nat.add_comm calls 1, ← Nat.add_assoc]
      exact counted''
    · rw [handovers_append, handed, slots, List.range'_succ, List.map_cons, rootSlot]
      rfl
    · intro rval newBlock among
      rw [events_append, passed] at among
      rcases List.mem_append.mp among with here | behind
      · simp at here
      · exact quiet rval newBlock behind

/-- Slots in the root collide with nothing. -/
theorem neverCollide_in_root
    (slots : handovers past = (List.range' 0 calls).map (rootSlot chunkSize recSize))
    (room : calls ≤ rootRoom chunkSize recSize)
    (quiet : ∀ rval newBlock, .appendLeft rval newBlock ∉ events past) :
    NeverCollide (recSize.toNat + 1) calls past := by
  have named (slot : Handover) (among : slot ∈ handovers past) :
      ∃ place < calls, slot = rootSlot chunkSize recSize place := by
    rw [slots] at among
    obtain ⟨place, inside, rfl⟩ := List.mem_map.mp among
    rw [List.mem_range'_1] at inside
    exact ⟨place, by omega, rfl⟩
  constructor
  · rw [slots, List.length_map, List.length_range']
  · intro slot among
    obtain ⟨place, below, rfl⟩ := named slot among
    obtain ⟨-, -, ends⟩ := small_of_room (Nat.lt_of_lt_of_le below room)
    exact ⟨Int.natCast_nonneg _, Int.ofNat_le.mpr ends⟩
  · rw [slots, List.pairwise_map]
    refine (List.nodup_range' : (List.range' 0 calls).Nodup).imp fun {one other} different => ?_
    have apart := @Segments.cells_apart (recSize.toNat + 1) one other different
    exact (Handover.clear_iff rfl).mpr (by omega)
  · intro slot among
    obtain ⟨place, -, rfl⟩ := named slot among
    exact .inr (Int.ofNat_le.mpr (Nat.le_add_right 72 _))
  · intro newBlock among
    exact absurd among (quiet _ newBlock)

/-- A run is a first part and the rest. -/
theorem SuccessfulCalls.split {first second : Nat}
    (run : SuccessfulCalls platform handle user world (first + second) past final) :
    ∃ past' later middle, past = past' ++ later ∧
      SuccessfulCalls platform handle user world first past' middle ∧
      SuccessfulCalls platform handle user middle second later final := by
  induction first generalizing world past with
  | zero =>
    rw [Nat.zero_add] at run
    exact ⟨[], past, world, rfl, .none world, run⟩
  | succ first ih =>
    rw [Nat.add_right_comm] at run
    cases run with
    | more completed kept rest =>
      obtain ⟨past', later, middle, rfl, front, back⟩ := ih rest
      exact ⟨_, later, middle, (List.append_assoc ..).symm, .more completed kept front, back⟩

/-- The callback passes no event. -/
theorem Increments.silent (increments : Increments platform user) : Silent platform user :=
  fun handle htable offset file =>
    (increments handle htable offset file).mono fun _ _ _ made => made.1

/-- A run hands over at most one slot for each call. -/
theorem SuccessfulCalls.at_most (silent : Silent platform user)
    (run : SuccessfulCalls platform handle user world calls past final) :
    (handovers past).length ≤ calls := by
  induction run with
  | none world => exact Nat.le_refl _
  | @more fuel calls world middle final later completed kept rest ih =>
    have outcome : UnderFaults platform world.file
        (flatrecsGetNextOffset fuel handle (0 : Nat) user) fun rval _ past => rval = .success →
          past.filterMap Event.handedOffset = [] ∨
            ∃ offset, True ∧ past.filterMap Event.handedOffset = [offset] :=
      getNextOffset_handed silent fun _ _ _ _ _ _ _ => trivial
    have one : (handovers (log (posix platform)
        (flatrecsGetNextOffset fuel handle (0 : Nat) user) world)).length ≤ 1 := by
      rw [← List.length_map Handover.offset, handovers_offsets]
      rcases outcome world rfl _ _ completed kept rfl with none | ⟨offset, -, single⟩
      · rw [none]
        exact Nat.zero_le _
      · rw [single]
        exact Nat.le_refl _
    rw [handovers_append, List.length_append]
    omega

/-- The offsets that are delivered for the first record behind the root: behind the
first 32 bytes of the root, or where its first record is. -/
def Displaced (chunkSize recSize : UInt32) (offset : OffT) : Prop :=
  offset = 32 ∨ offset = 72 ∧ 0 < rootRoom chunkSize recSize

/-- The first search behind the root delivers one of them. -/
theorem Counted.search_behind {file : List UInt8} {fuel : Nat}
    (counted : Counted chunkSize recSize (rootRoom chunkSize recSize) file)
    (large : 72 ≤ chunkSize.toNat) (small : recSize.toNat + 1 < 2 ^ 32) :
    UnderFaults platform file (nextSearch fuel handle file) fun result _ _ =>
      result.1 = .success → Displaced chunkSize recSize result.2 := by
  have bhead : (htableAt file 0).bhead = (freshHead chunkSize recSize).bhead := by
    rw [htableAt_bhead, counted.bhead]
  have capacity : flatrecsGetRecordCapacity (htableAt file 0) (htableAt file 0).bhead =
      UInt32.ofNat (rootRoom chunkSize recSize) := by
    have same := rootRoom_eq large small (UInt32.ofNat (rootRoom chunkSize recSize))
    rw [bhead, counted.htable]
    exact UInt32.ofNat_toNat.symm.trans (congrArg UInt32.ofNat same)
  have threaded : Threaded file 0 ([] ++ [0]) := by
    refine ⟨⟨?_, List.pairwise_singleton _ _⟩, List.isChain_singleton _, rfl⟩
    intro offset among
    obtain rfl := List.mem_singleton.mp among
    have table : headLength file 0 = 64 := by
      rw [headLength, counted.bhead]
      rfl
    rw [table, counted.length]
    omega
  have beyond : ¬ Search.Covers (htableAt file 0) (nextRecno file 0)
      ⟨(htableAt file 0).bhead, (0 : Nat), 1⟩ := by
    rw [Search.Covers, counted.local_index, capacity]
    exact UInt32.lt_irrefl _
  have number : 1 + flatrecsGetRecordCapacity (htableAt file 0) (htableAt file 0).bhead =
      nextRecno file 0 := by
    rw [capacity, ← counted.local_index, UInt32.add_comm, UInt32.sub_add_cancel]
  have free : (htableAt file 0).bhead.nextBlock.offset = 0 := by
    rw [bhead]
    rfl
  refine (search_reaches_number fuel threaded rfl free beyond number).mono
    fun result _ _ found success => ?_
  rcases found success with added | ⟨place, some⟩
  · exact .inl added
  · rw [bhead] at place
    rw [capacity, UInt32.lt_iff_toNat_lt] at some
    rw [UInt32.toNat_ofNat'] at some
    exact .inr ⟨place, Nat.lt_of_lt_of_le some (Nat.mod_le _ _)⟩

/-- Where the record size wraps to nothing, the first search leaves the file alone. -/
theorem Counted.search_wide {file : List UInt8} {fuel : Nat}
    (counted : Counted chunkSize recSize 0 file) (wide : recSize + 1 = 0) :
    UnderFaults platform file (nextSearch fuel handle file) fun _ after _ => after = file := by
  have covered : Search.Covers (htableAt file 0) (nextRecno file 0)
      ⟨(htableAt file 0).bhead, (0 : Nat), 1⟩ := by
    have recsize : ¬ flatrecsFullRecsize (htableAt file 0) > 0 := by
      rw [counted.htable]
      exact fun positive => absurd (positive.trans_eq wide) (UInt32.lt_irrefl _)
    rw [Search.Covers, counted.local_index, flatrecsGetRecordCapacity, if_neg recsize]
    decide
  exact (search_here covered).mono fun _ _ _ found => found.2.1

/-- A slot that the first call behind the root hands over. -/
theorem Counted.displaced {fuel : Nat} {next : World}
    (full : Counted chunkSize recSize (rootRoom chunkSize recSize) world.file)
    (large : 72 ≤ chunkSize.toNat) (small : recSize.toNat + 1 < 2 ^ 32)
    (silent : Silent platform user)
    (completed : Program.run (posix platform)
      (flatrecsGetNextOffset fuel handle (0 : Nat) user) world =
      (.ok .success, next))
    (lossless : Lossless platform
      (log (posix platform) (flatrecsGetNextOffset fuel handle (0 : Nat) user) world))
    {slot : Handover} (there : slot ∈ handovers (log (posix platform)
      (flatrecsGetNextOffset fuel handle (0 : Nat) user) world)) :
    Displaced chunkSize recSize slot.offset := by
  have outcome := getNextOffset_handed silent (full.search_behind large small) world rfl _ _
    completed lossless rfl
  have named := List.mem_map_of_mem (f := Handover.offset) there
  rw [← handovers_offsets] at outcome
  rcases outcome with none | ⟨offset, displaced, single⟩
  · rw [none] at named
    exact absurd named List.not_mem_nil
  · rw [single] at named
    rwa [List.mem_singleton.mp named]

/-- Where the record size wraps to nothing, the first slot is wider than the file. -/
theorem Counted.too_wide {fuel : Nat} {next : World} (fresh : Counted chunkSize recSize 0 world.file)
    (wide : recSize.toNat + 1 = 2 ^ 32) (silent : Silent platform user)
    (completed : Program.run (posix platform)
      (flatrecsGetNextOffset fuel handle (0 : Nat) user) world =
      (.ok .success, next))
    (lossless : Lossless platform
      (log (posix platform) (flatrecsGetNextOffset fuel handle (0 : Nat) user) world))
    {slot : Handover} (there : slot ∈ handovers (log (posix platform)
      (flatrecsGetNextOffset fuel handle (0 : Nat) user) world)) :
    ¬ (0 ≤ slot.offset ∧ slot.offset + (recSize.toNat + 1 : Nat) ≤ slot.fileLength) := by
  rintro ⟨nonnegative, ends⟩
  have wraps : recSize + 1 = 0 := by
    rw [← UInt32.toNat_inj, UInt32.toNat_add, UInt32.toNat_one, wide]
    rfl
  obtain ⟨before, searched, same, searchRun, spared, length⟩ :=
    getNextOffset_hands silent world rfl _ _ completed lossless slot there
  have kept := fresh.search_wide wraps before same _ _ searchRun spared
  obtain ⟨place, here⟩ := Int.eq_ofNat_of_zero_le nonnegative
  have bound := chunkSize.toNat_lt
  rw [length, kept, fresh.length, wide, here, ← Int.natCast_add, Int.ofNat_le] at ends
  omega

/-- A displaced slot collides with the header of the table or with the first slot. -/
theorem NeverCollide.not_displaced {count : Nat} {later : List (Moment Call Answer World)}
    (never : NeverCollide (recSize.toNat + 1) count (past ++ later))
    (slots : handovers past =
      (List.range' 0 (rootRoom chunkSize recSize)).map (rootSlot chunkSize recSize))
    {slot : Handover} (there : slot ∈ handovers later) :
    ¬ Displaced chunkSize recSize slot.offset := by
  have clear : ∀ slot ∈ handovers later, slot.Clear (recSize.toNat + 1) 0 sizeofHeadFile := by
    intro slot among
    refine never.table slot ?_
    rw [handovers_append]
    exact List.mem_append_right _ among
  have apart := never.apart
  rw [handovers_append] at apart
  rintro (inner | ⟨first, some⟩)
  · have here : slot.offset = (32 : Nat) := inner
    rcases (@Handover.clear_iff slot 32 _ 0 _ here).mp (clear slot there) with before | behind
    · omega
    · exact absurd behind (by decide)
  · have earlier : rootSlot chunkSize recSize 0 ∈ handovers past := by
      rw [slots]
      exact List.mem_map_of_mem (List.mem_range'_1.mpr ⟨Nat.le_refl _, by omega⟩)
    have here : slot.offset = (72 : Nat) := first
    have twice := (List.pairwise_append.mp apart).2.2 _ earlier slot there
    rw [here, Handover.clear_iff rfl] at twice
    omega

/-- The slots that are handed over in a run never collide if and only if the root
has room for all of them. -/
theorem neverCollide_iff_rootRoom {world created final : World} {flags : UInt32}
    (large : 72 ≤ chunkSize.toNat) (create : rndCreate flags = true)
    (opened : Program.run (posix platform) (blocksFileOpen flags chunkSize recSize) world =
      (.ok (.success, handle), created))
    (increments : Increments platform user)
    (run : SuccessfulCalls platform handle user created calls past final) :
    NeverCollide (recSize.toNat + 1) calls past ↔ calls ≤ rootRoom chunkSize recSize := by
  have positive : chunkSize > 0 := by
    rw [gt_iff_lt, UInt32.lt_iff_toNat_lt]
    exact Nat.lt_of_lt_of_le (by decide) large
  obtain ⟨fresh, -⟩ := blocksFileOpen_create create positive opened
  have counted : Counted chunkSize recSize 0 created.file := by
    rw [fresh]
    exact counted_fresh large recSize
  constructor
  · intro never
    by_contra more
    obtain ⟨behind, rfl⟩ := Nat.exists_eq_add_of_lt (Nat.lt_of_not_le more)
    rw [Nat.add_assoc] at run never
    obtain ⟨past', _, middle, rfl, front, back⟩ := run.split
    obtain ⟨full, slots, -⟩ := front.in_root large increments counted (by omega)
    rw [Nat.zero_add] at full
    cases back with
    | @more fuel _ _ next _ later completed kept rest =>
      -- the calls behind this one cannot make up for a slot that it does not hand over
      have few := rest.at_most increments.silent
      have handed := never.handed
      rw [handovers_append, handovers_append, slots] at handed
      simp only [List.length_append, List.length_map, List.length_range'] at handed
      obtain ⟨slot, there⟩ : ∃ slot, slot ∈ handovers (log (posix platform)
          (flatrecsGetNextOffset fuel handle (0 : Nat) user) middle) :=
        List.exists_mem_of_ne_nil _ (List.ne_nil_of_length_pos (by omega))
      have among : slot ∈ handovers (log (posix platform)
          (flatrecsGetNextOffset fuel handle (0 : Nat) user) middle ++ later) := by
        rw [handovers_append]
        exact List.mem_append_left _ there
      by_cases small : recSize.toNat + 1 < 2 ^ 32
      · exact never.not_displaced slots among
          (full.displaced large small increments.silent completed kept there)
      · have wide : recSize.toNat + 1 = 2 ^ 32 := by
          have := recSize.toNat_lt
          omega
        have empty : rootRoom chunkSize recSize = 0 := by
          have bound := chunkSize.toNat_lt
          rw [rootRoom, wide]
          exact Nat.div_eq_of_lt (by omega)
        rw [empty] at full
        refine full.too_wide wide increments.silent completed kept there (never.inside slot ?_)
        rw [handovers_append]
        exact List.mem_append_right _ among
  · intro room
    obtain ⟨-, slots, quiet⟩ := run.in_root large increments counted (by omega)
    exact neverCollide_in_root slots room quiet

end Runs

/-! ## Three records of a new table -/

theorem takeNumber_increments {platform : Platform} : Increments platform takeNumber :=
  fun _ _ _ _ => UnderFaults.ret ⟨rfl, rfl, ⟨Nat.le_refl _, fun _ _ => rfl⟩⟩

/-- A new file whose root has room for two slots. -/
def newTable : World :=
  (Program.run (posix soundPlatform) (blocksFileOpen rndCreateFlag 80 3) { disk := [] }).2

/-- The request for its next record. -/
def nextCall : Prog RndError := flatrecsGetNextOffset 3 (freshHandle 0 80 3) (0 : Nat) takeNumber

/-- The state behind a number of requests. -/
def afterCalls : Nat → World
  | 0 => newTable
  | calls + 1 => (Program.run (posix soundPlatform) nextCall (afterCalls calls)).2

/-- The moments of a number of requests, from a number of earlier ones on. -/
def momentsOf : Nat → Nat → List (Moment Call Answer World)
  | _, 0 => []
  | earlier, calls + 1 =>
      log (posix soundPlatform) nextCall (afterCalls earlier) ++ momentsOf (earlier + 1) calls

/-- Requests that succeed are successful calls. -/
theorem successfulCalls_of_requests (calls earlier : Nat)
    (succeed : ∀ call < calls, (Program.run (posix soundPlatform) nextCall
      (afterCalls (earlier + call))).1 = .ok .success) :
    SuccessfulCalls soundPlatform (freshHandle 0 80 3) takeNumber (afterCalls earlier) calls
      (momentsOf earlier calls) (afterCalls (earlier + calls)) := by
  induction calls generalizing earlier with
  | zero => exact .none _
  | succ calls ih =>
    have first := succeed 0 (Nat.succ_pos _)
    refine .more (run_eq_of_value _ first) ((Platform.durable_sound _).lossless _) ?_
    rw [Nat.add_comm calls 1, ← Nat.add_assoc]
    refine ih (earlier + 1) fun call below => ?_
    rw [Nat.add_right_comm]
    exact succeed (call + 1) (Nat.succ_lt_succ below)

theorem newTable_opened :
    Program.run (posix soundPlatform) (blocksFileOpen rndCreateFlag 80 3) { disk := [] } =
      (.ok (.success, freshHandle 0 80 3), newTable) :=
  run_eq_of_value _ (by decide +kernel)

/-- The two slots of the root do not collide. -/
theorem neverCollide_iff_rootRoom_two : NeverCollide 4 2 (momentsOf 0 2) := by
  have run := successfulCalls_of_requests 2 0 (by decide +kernel)
  exact (neverCollide_iff_rootRoom (by decide) (by decide) newTable_opened takeNumber_increments
    run).mpr (by decide)

/-- The slot of the third record lies over the header of the table. -/
theorem third_slot_collides :
    ¬ ∀ calls past final, SuccessfulCalls soundPlatform (freshHandle 0 80 3) takeNumber newTable
      calls past final → NeverCollide 4 calls past := by
  intro always
  have never := always _ _ _ (successfulCalls_of_requests 3 0 (by decide +kernel))
  have third : (⟨32, 112⟩ : Handover) ∈ handovers (momentsOf 0 3) := by decide +kernel
  have clear := never.table _ third
  rw [Handover.Clear] at clear
  exact absurd clear (by decide)

end Recnodb
