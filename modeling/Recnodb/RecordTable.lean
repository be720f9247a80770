import Recnodb.AutoIncrement
import Recnodb.HeadRewrites
import Recnodb.LockDiscipline

/-!
# A table as a list of records

The table of a new file, as long as its root has room, is an append-only list of records. A user
callback that stores its record in the slot it is handed, and counts it if it was written, makes
`flatrecs_get_next_offset` the insertion at the end of the list. Whichever calls fail without losing
what the stream holds, an insertion leaves the list as it was or with its record at the end, and
success of a call whose record was counted means the latter. The search for a record number delivers
the slot of that record.
-/

namespace Recnodb

open Interaction Octets Program

/-! ## Lists of records -/

/-- A record with the byte in front of it, as it lies in its slot. -/
abbrev Record (recSize : UInt32) : Type :=
  { bytes : List UInt8 // bytes.length = recSize.toNat + 1 }

/-- A list of records for which there is room. -/
structure RecordTable (chunkSize recSize : UInt32) where
  records : List (Record recSize)
  room : records.length ≤ rootRoom chunkSize recSize
deriving DecidableEq

namespace RecordTable

variable {chunkSize recSize : UInt32}

/-- The table of a new file. -/
def empty (chunkSize recSize : UInt32) : RecordTable chunkSize recSize := ⟨[], Nat.zero_le _⟩

/-- There is room for one more record. -/
def Free (table : RecordTable chunkSize recSize) : Prop :=
  table.records.length < rootRoom chunkSize recSize

/-- One record more at the end. -/
def insert (table : RecordTable chunkSize recSize) (record : Record recSize) (free : table.Free) :
    RecordTable chunkSize recSize where
  records := table.records ++ [record]
  room := by
    rw [List.length_append]
    exact free

end RecordTable

/-- The place of a slot in the root. -/
def slotPlace (recSize : UInt32) (index : Nat) : Nat := 72 + index * (recSize.toNat + 1)

/-- The file holds the table: its header counts the records, its slots hold them, and the part of
the header that is the file's is that of a new one. -/
structure Represents {chunkSize recSize : UInt32} (table : RecordTable chunkSize recSize)
    (file : List UInt8) : Prop where
  counted : Counted chunkSize recSize table.records.length file
  fileHead : slice file 64 8 = (freshHead chunkSize recSize).fhead.toBytes
  slots : ∀ index (within : index < table.records.length),
    slice file (slotPlace recSize index) (recSize.toNat + 1) = table.records[index].val

section Files

variable {chunkSize recSize : UInt32} {table : RecordTable chunkSize recSize} {file : List UInt8}

/-- A new file holds the table without records. -/
theorem represents_fresh (large : 72 ≤ chunkSize.toNat) (recSize : UInt32) :
    Represents (.empty chunkSize recSize) (freshFile chunkSize recSize) where
  counted := counted_fresh large recSize
  fileHead := by
    rw [freshFile_front (by decide), freshHead, RndHeadFile.toBytes,
      slice_field_later (InfoBlock.toBytes_length _) (by decide),
      slice_field_later (InfoChain.toBytes_length _) (by decide),
      slice_field_later (InfoTable.toBytes_length _) (by decide)]
    exact slice_all _
  slots index within := absurd within (Nat.not_lt_zero _)

/-- Slots in the root lie inside the file, apart from each other and from the header. -/
theorem slot_inside {index : Nat} (within : index < rootRoom chunkSize recSize) :
    72 ≤ slotPlace recSize index ∧
      slotPlace recSize index + (recSize.toNat + 1) ≤ chunkSize.toNat := by
  obtain ⟨-, -, inside⟩ := small_of_room within
  exact ⟨Nat.le_add_right _ _, inside⟩

/-- A slot ends where the next one begins, or before. -/
theorem slot_before {index later : Nat} (before : index < later) :
    slotPlace recSize index + (recSize.toNat + 1) ≤ slotPlace recSize later := by
  have rows : (index + 1) * (recSize.toNat + 1) ≤ later * (recSize.toNat + 1) :=
    Nat.mul_le_mul_right _ before
  rw [Nat.succ_mul] at rows
  rw [slotPlace, slotPlace]
  omega

/-- A write that is not longer than a range is one inside it. -/
theorem writesWithin_patch {bytes : List UInt8} {start width : Nat} (short : bytes.length ≤ width) :
    WritesWithin start width file (patch file start bytes) := by
  refine ⟨length_le_patch _ _ _, fun index outside => ?_⟩
  have away : (index < file.length ∧ index < start) ∨ start + width ≤ index := by
    exact_mod_cast outside
  by_cases there : index < file.length
  · exact patch_getElem?_outside there (by omega)
  · by_cases empty : bytes = []
    · rw [empty, patch_nil]
    · rw [List.getElem?_eq_none (Nat.le_of_not_lt there), List.getElem?_eq_none]
      rw [patch_length _ _ _ empty]
      omega

/-- What lies in front of the next slot is kept by a write inside it. -/
theorem Represents.front (represents : Represents table file) (free : table.Free) {after : List UInt8}
    (within : WritesWithin (slotPlace recSize table.records.length) (recSize.toNat + 1) file after)
    {start count : Nat} (front : start + count ≤ slotPlace recSize table.records.length) :
    slice after start count = slice file start count := by
  obtain ⟨-, inside⟩ := slot_inside free
  have length := represents.counted.length
  apply slice_congr
  intro index _ below
  exact within.outside index (.inl ⟨by omega, by exact_mod_cast (by omega : index < _)⟩)

/-- A write inside the next slot leaves the table. -/
theorem Represents.beside (represents : Represents table file) (free : table.Free)
    {after : List UInt8}
    (within : WritesWithin (slotPlace recSize table.records.length) (recSize.toNat + 1) file after) :
    Represents table after := by
  obtain ⟨above, inside⟩ := slot_inside free
  have length := represents.counted.length
  have same : after.length = file.length := within.length (by omega)
  refine ⟨⟨same.trans length, ?_⟩, ?_, fun index counted => ?_⟩
  · rw [represents.front free within (by omega)]
    exact represents.counted.head
  · rw [represents.front free within (by omega)]
    exact represents.fileHead
  · rw [represents.front free within (slot_before counted)]
    exact represents.slots index counted

/-- The header that counts one more record. -/
def nextHeader (file : List UInt8) : RndHeadTable :=
  (htableAt file 0).numbered ((htableAt file 0).thead.lastRecno + 1)

/-- The header that is written back has 64 bytes. -/
theorem nextHeader_length (file : List UInt8) : (nextHeader file).toBytes.length = 64 :=
  RndHeadTable.toBytes_length _

/-- The write of a record to the next slot and the write-back of the header insert it. -/
theorem Represents.inserted (represents : Represents table file) (free : table.Free)
    (record : Record recSize) :
    Represents (table.insert record free)
      (patch (patch file (slotPlace recSize table.records.length) record.val) 0
        (nextHeader file).toBytes) := by
  obtain ⟨above, inside⟩ := slot_inside free
  have length := represents.counted.length
  have bound := chunkSize.toNat_lt
  have size := record.property
  have within : WritesWithin (slotPlace recSize table.records.length) (recSize.toNat + 1) file
      (patch file (slotPlace recSize table.records.length) record.val) :=
    writesWithin_patch (Nat.le_of_eq size)
  have same : (patch file (slotPlace recSize table.records.length) record.val).length =
      file.length := within.length (by omega)
  have behind {start count : Nat} (behind : 64 ≤ start) (ends : start + count ≤ file.length) :
      slice (patch (patch file (slotPlace recSize table.records.length) record.val) 0
        (nextHeader file).toBytes) start count =
          slice (patch file (slotPlace recSize table.records.length) record.val) start count := by
    apply slice_patch_disjoint (by omega)
    rw [nextHeader_length]
    omega
  refine ⟨?_, ?_, fun index counted => ?_⟩
  · have advanced := represents.counted.advance free within
    rw [RecordTable.insert, List.length_append]
    exact advanced
  · rw [behind (by omega) (by omega), represents.front free within (by omega)]
    exact represents.fileHead
  · have last : index ≤ table.records.length := by
      rw [RecordTable.insert, List.length_append] at counted
      exact Nat.lt_succ_iff.mp counted
    have row := slot_inside (Nat.lt_of_le_of_lt last free)
    rw [behind (by omega) (by omega)]
    rcases Nat.lt_or_eq_of_le last with earlier | rfl
    · rw [represents.front free within (slot_before earlier), represents.slots index earlier]
      exact congrArg Subtype.val (List.getElem_append_left earlier).symm
    · have whole := slice_patch_same file (slotPlace recSize table.records.length) record.val
      rw [size] at whole
      rw [whole]
      exact congrArg Subtype.val (List.getElem_concat_length rfl _).symm

/-- Headers that differ in the last record number agree in front of it. -/
theorem numbered_front (htable : RndHeadTable) (number : UInt32) {count : Nat} (short : count ≤ 60) :
    (htable.numbered number).toBytes.take count = htable.toBytes.take count := by
  have front (number : UInt32) : (htable.numbered number).toBytes.take count =
      (htable.bhead.toBytes ++ (htable.chead.toBytes ++
        encode 4 htable.thead.recSize.toNat)).take count := by
    have split : (htable.numbered number).toBytes = (htable.bhead.toBytes ++
        (htable.chead.toBytes ++ encode 4 htable.thead.recSize.toNat)) ++ encode 4 number.toNat := by
      simp only [RndHeadTable.numbered, RndHeadTable.toBytes, InfoTable.toBytes, List.append_assoc]
    have length : (htable.bhead.toBytes ++
        (htable.chead.toBytes ++ encode 4 htable.thead.recSize.toNat)).length = 60 := by
      simp
    rw [split, List.take_append_of_le_length (by omega)]
  exact (front number).trans (front htable.thead.lastRecno).symm

/-- A header that is written in front of its record number only is the old one. -/
theorem Represents.torn (represents : Represents table file) {middle : List UInt8}
    (same : Represents table middle) {count : Nat} (short : count ≤ 60) :
    patch middle 0 ((nextHeader file).toBytes.take count) = middle := by
  have header : (nextHeader file).toBytes.take count = (slice middle 0 64).take count := by
    rw [nextHeader, numbered_front _ _ short, represents.counted.htable, same.counted.head]
  apply patch_agrees
  intro index among
  rw [header] at among ⊢
  rw [List.length_take] at among
  rw [List.getElem?_take_of_lt (by omega), slice_getElem?, if_pos (by omega), Nat.zero_add]

end Files

/-! ## The insertion -/

/-- A failed write does not end inside the record number of a table header. -/
def Platform.WholeNumbers (platform : Platform) : Prop :=
  ∀ time fault, platform.faults time = some fault → fault.written ≤ 60 ∨ 64 ≤ fault.written

/-- A write of a table header is cut in front of its record number or behind it. -/
theorem Platform.WholeNumbers.cuts {platform : Platform} (whole : platform.WholeNumbers) {count : Nat}
    (cuts : platform.Cuts 0 count) : count ≤ 60 ∨ 64 ≤ count := by
  rcases cuts with rfl | ⟨time, fault, scheduled, rfl⟩
  · exact .inl (Nat.zero_le _)
  · have either := whole time fault scheduled
    rw [offMax]
    omega

/-- A user callback that stores a record: it writes the record to its slot, counts it and asks for
the write-back, or it writes inside the slot at most and asks for nothing. -/
def Stores (platform : Platform) (record : List UInt8) (user : FlatrecsUseNewRecord) : Prop :=
  ∀ handle htable (place : Nat) file, UnderFaults platform file (user handle htable place)
    fun answer after past => past = [] ∧
      (answer = (true, htable.numbered (htable.thead.lastRecno + 1)) ∧
          after = patch file place record ∨
        answer.1 = false ∧ WritesWithin place record.length file after)

/-- A callback that does so. -/
def storeRecord (record : List UInt8) : FlatrecsUseNewRecord := fun _ htable offset => do
  if ← seekWrite offset record then pure (true, htable.numbered (htable.thead.lastRecno + 1))
  else pure (false, htable)

/-- This callback stores its record. -/
theorem storeRecord_stores (platform : Platform) (record : List UInt8) :
    Stores platform record (storeRecord record) := by
  intro handle htable place file
  refine UnderFaults.seekWrite_bind (fun start same _ => ?_) (fun start count same => ?_) ?_
  · obtain rfl : place = start := Int.natCast_inj.mp same
    exact UnderFaults.ret ⟨rfl, .inl ⟨rfl, rfl⟩⟩
  · obtain rfl : place = start := Int.natCast_inj.mp same
    refine UnderFaults.ret ⟨rfl, .inr ⟨rfl, writesWithin_patch ?_⟩⟩
    exact List.length_take_le' _ _
  · exact UnderFaults.ret ⟨rfl, .inr ⟨rfl, Nat.le_refl _, fun _ _ => rfl⟩⟩

/-- A record with a user callback that stores it. -/
structure Storage (recSize : UInt32) where
  record : Record recSize
  user : FlatrecsUseNewRecord
  stores : ∀ platform, Stores platform record.val user

/-- A record with the callback that writes it. -/
def Storage.plain {recSize : UInt32} (record : Record recSize) : Storage recSize where
  record := record
  user := storeRecord record.val
  stores platform := storeRecord_stores platform record.val

/-- Its calls are direct. -/
theorem storeRecord_direct {handle : Rndh} {htable : RndHeadTable} {offset : OffT}
    (record : List UInt8) : (storeRecord record handle htable offset).Only Call.Direct :=
  only_bind direct_seekWrite fun written => by cases written <;> trivial

section Calls

variable {platform : Platform} {file : List UInt8} {handle : Rndh} {bhandle : BlockLoc}

/-- What the part under the lock of an area leaves, whatever it answers. -/
theorem lockedData_leaves {callback : LockCallback}
    {post : RndError → List UInt8 → List Event → Prop}
    (untouched : ∀ rval, rval ≠ .success → post rval file [])
    (called : ∀ start : Nat, bhandle.offset = start → start + bhandle.size.toNat ≤ file.length →
      UnderFaults platform file
        (callback handle bhandle (some (slice file start bhandle.size.toNat)))
        fun result middle past => (result.1 = false → post .success middle past) ∧
          (result.1 = true → post .success (patch middle start result.2) past ∧
            ∀ rval count, rval ≠ .success → platform.Cuts start count →
              post rval (patch middle start (result.2.take count)) past)) :
    UnderFaults platform file (lockedData handle bhandle callback) post := by
  have left {rval : RndError} {after : List UInt8} {past : List Event} (holds : post rval after past)
      (saved : OffT) : UnderFaults platform after
        (fseek saved .seekSet >>= fun _ => pure rval : Prog RndError)
        fun code final later => post code final (past ++ later) := by
    refine UnderFaults.fseek_bind fun _ => UnderFaults.ret ?_
    rw [List.append_nil]
    exact holds
  refine UnderFaults.of_positions fun position => ?_
  refine FromPosition.ftell_saved fun saved => ?_
  refine FromPosition.fseek_bind (fun start same _ => ?_)
    (FromPosition.of_file (UnderFaults.kept_error (untouched _ RndError.noConfusion)))
  dsimp only
  rw [if_pos rfl]
  refine FromPosition.fread_bind (fun inside _ => FromPosition.of_file ?_)
    (left (untouched .lockReadFailed RndError.noConfusion) saved)
  refine UnderFaults.bind (called start same inside) ?_
  rintro ⟨changed, buffer⟩ middle past ⟨kept, written⟩
  cases changed with
  | false => exact left (kept rfl) saved
  | true =>
    obtain ⟨whole, part⟩ := written rfl
    refine UnderFaults.seekWrite_cut_bind (fun place here _ => ?_)
      (fun place count here cuts => ?_) ?_
    · obtain rfl : start = place := Int.natCast_inj.mp (same.symm.trans here)
      exact left whole saved
    · obtain rfl : start = place := Int.natCast_inj.mp (same.symm.trans here)
      exact left (part _ count RndError.noConfusion cuts) saved
    · have none := part .unlockWriteFailed 0 RndError.noConfusion (.inl rfl)
      rw [List.take_zero, patch_nil] at none
      exact left none saved

/-- What the part under the lock leaves is left by the whole function, which may fail besides. -/
theorem rndLockArea_leaves {callback : LockCallback}
    {post : RndError → List UInt8 → List Event → Prop}
    (untouched : ∀ rval, rval ≠ .success → post rval file [])
    (fails : ∀ rval after past, post rval after past → post .systemError after past)
    (locked : UnderFaults platform file (lockedData handle bhandle callback) post) :
    UnderFaults platform file (rndLockArea handle bhandle true callback) post := by
  rw [rndLockArea_eq]
  refine UnderFaults.primeHandle_bind (UnderFaults.fcntl_bind fun reply => ?_)
  cases reply with
  | some errno =>
    dsimp only
    split
    · exact UnderFaults.ret (untouched _ RndError.noConfusion)
    · exact UnderFaults.kept_error (untouched _ RndError.noConfusion)
  | none =>
    refine UnderFaults.bind locked fun rval after past holds => ?_
    refine UnderFaults.fcntl_bind fun reply => ?_
    cases reply with
    | some errno =>
      refine UnderFaults.kept_error ?_
      rw [List.append_nil]
      exact fails _ _ _ holds
    | none =>
      refine UnderFaults.ret ?_
      rw [List.append_nil]
      exact holds

variable {chunkSize recSize : UInt32} {table : RecordTable chunkSize recSize} {fuel : Nat}

/-- What an insertion leaves: the table as it was, and then the call did not succeed in counting the
record, or the table with the record at its end. -/
def Inserts (table : RecordTable chunkSize recSize) (record : Record recSize) (free : table.Free)
    (rval : RndError) (after : List UInt8) (past : List Event) : Prop :=
  Represents table after ∧ (rval = .success → Event.answered true ∉ past) ∨
    Represents (table.insert record free) after

/-- Whatever fails without a loss, the part under the lock of a call with a callback that stores a
record inserts it or leaves the table. -/
theorem Represents.locked (represents : Represents table file) (free : table.Free)
    {record : Record recSize} {user : FlatrecsUseNewRecord} (stores : Stores platform record.val user)
    (whole : platform.WholeNumbers) :
    UnderFaults platform file (lockedData handle ⟨(0 : Nat), sizeofHeadTable⟩
      (flatrecsGetNextOffsetLockCallback fuel user)) (Inserts table record free) := by
  obtain ⟨above, inside⟩ := slot_inside free
  have large : 72 ≤ chunkSize.toNat := by omega
  refine lockedData_leaves (fun rval bad => .inl ⟨represents, fun success => absurd success bad⟩)
    fun start same _ => ?_
  obtain rfl : 0 = start := Int.natCast_inj.mp same
  refine UnderFaults.note_bind (UnderFaults.bind (represents.counted.search_root large free) ?_)
  rintro _ middle past ⟨rfl, rfl, rfl⟩
  dsimp only
  rw [if_neg (not_not_intro rfl)]
  refine UnderFaults.note_bind (UnderFaults.bind (stores handle _ _ middle) ?_)
  rintro ⟨changed, htable⟩ after past ⟨rfl, stored⟩
  refine UnderFaults.note_bind (UnderFaults.ret ?_)
  rcases stored with ⟨answer, rfl⟩ | ⟨rfl, within⟩
  · obtain ⟨rfl, rfl⟩ := Prod.mk.inj answer
    have inserted := represents.inserted free record
    have written : Represents table
        (patch middle (slotPlace recSize table.records.length) record.val) :=
      represents.beside free (writesWithin_patch (Nat.le_of_eq record.property))
    refine ⟨Bool.noConfusion, fun _ => ⟨.inr inserted, fun rval count bad cuts => ?_⟩⟩
    dsimp only
    rcases whole.cuts cuts with short | long
    · -- the record lies in its slot, but the header does not count it
      refine .inl ⟨?_, fun success => absurd success bad⟩
      have same := represents.torn written short
      exact same.symm ▸ written
    · have full : (nextHeader middle).toBytes.take count = (nextHeader middle).toBytes :=
        List.take_of_length_le ((nextHeader_length middle).trans_le long)
      exact .inr (full.symm ▸ inserted)
  · rw [record.property] at within
    refine ⟨fun _ => .inl ⟨represents.beside free within, fun _ => ?_⟩, Bool.noConfusion⟩
    simp

/-- So does the whole call. -/
theorem Represents.insertion (represents : Represents table file) (free : table.Free)
    {record : Record recSize} {user : FlatrecsUseNewRecord} (stores : Stores platform record.val user)
    (whole : platform.WholeNumbers) :
    UnderFaults platform file (flatrecsGetNextOffset fuel handle (0 : Nat) user)
      (Inserts table record free) := by
  refine UnderFaults.assert_bind fun _ => UnderFaults.primeHandle_bind ?_
  refine rndLockArea_leaves (fun rval bad => .inl ⟨represents, fun success => absurd success bad⟩)
    (fun rval after past inserts => ?_) (represents.locked free stores whole)
  exact inserts.imp_left fun kept => ⟨kept.1, RndError.noConfusion⟩

/-- The search for the number of a record delivers the slot that holds it, whatever fails without a
loss. -/
theorem Represents.lookup (represents : Represents table file) {index : Nat}
    (within : index < table.records.length) :
    UnderFaults platform file (flatrecsMakeOffsetToRecno fuel handle ⟨(0 : Nat), sizeofHeadTable⟩
      (htableAt file 0) (UInt32.ofNat (index + 1)))
      fun result after past => result = (.success, (slotPlace recSize index : OffT)) ∧
        after = file ∧ past = [] := by
  have room := Nat.lt_of_lt_of_le within table.room
  obtain ⟨small, number, ends⟩ := small_of_room room
  have bound := chunkSize.toNat_lt
  have counted := represents.counted
  have large : 72 ≤ chunkSize.toNat := by omega
  have bhead : (htableAt file 0).bhead = (freshHead chunkSize recSize).bhead := by
    rw [htableAt_bhead, counted.bhead]
  have place : (UInt32.ofNat (index + 1) - 1).toNat = index := by
    have one : UInt32.ofNat 1 = 1 := rfl
    rw [UInt32.ofNat_add, one, UInt32.add_sub_cancel, UInt32.toNat_ofNat']
    exact Nat.mod_eq_of_lt (by omega)
  have covered : Search.Covers (htableAt file 0) (UInt32.ofNat (index + 1))
      ⟨(htableAt file 0).bhead, (0 : Nat), 1⟩ := by
    rw [Search.Covers, bhead, counted.htable, UInt32.lt_iff_toNat_lt, rootRoom_eq large small, place]
    exact room
  refine (search_here covered).mono ?_
  rintro result after past ⟨rfl, rfl, rfl⟩
  refine ⟨congrArg (Prod.mk _) ?_, rfl, rfl⟩
  have slot : ((UInt32.ofNat (index + 1) - 1) * flatrecsFullRecsize (htableAt after 0)).toNat =
      index * (recSize.toNat + 1) := by
    rw [counted.htable, UInt32.toNat_mul, place, recsize_numbered small, Nat.mod_eq_of_lt (by omega)]
  rw [foundOffset, slot, bhead, slotPlace]
  push_cast
  simp [freshHead]

end Calls

end Recnodb
