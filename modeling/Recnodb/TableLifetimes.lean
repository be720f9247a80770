import Recnodb.Crashes
import Recnodb.RecordTable

/-!
# The lifetimes of a table

A table is used by processes one after another. Each opens the file and inserts records until it
goes away: between two calls of the library, or at any single call to the platform inside one, and
whatever calls failed before without losing what the stream held. The file it leaves holds a table,
in which every record stands whose insertion was acknowledged, in the order of the insertions, and
nothing stands that was not inserted. The search for the number of each of its records delivers the
slot that holds it.
-/

namespace Recnodb

open Interaction Octets Program

section Completion

variable {platform : Platform} {file : List UInt8} {handle : Rndh} {fuel : Nat}
variable {chunkSize recSize : UInt32} {table : RecordTable chunkSize recSize}

/-- A triple that says nothing. -/
theorem UnderFaults.nothing {α : Type} {program : Prog α} :
    UnderFaults platform file program fun _ _ _ => True :=
  fun _ _ _ _ _ _ => trivial

theorem UnderFaults.of_keeping {α : Type} {program : Prog α} (keeping : program.Only Call.Keeping) :
    UnderFaults platform file program fun _ after _ => after = file := by
  intro world same value after completed lossless
  have kept := run_keeping_spared keeping lossless
  rw [completed] at kept
  exact kept.trans same

/-- The search for the next record of a table that has room makes no call. -/
theorem Represents.search_ret (represents : Represents table file) (free : table.Free)
    (handle : Rndh) (fuel : Nat) :
    ∃ offset, nextSearch (fuel + 1) handle file = .ret (.success, offset) := by
  obtain ⟨small, number, ends⟩ := small_of_room free
  have large : 72 ≤ chunkSize.toNat := by omega
  have counted := represents.counted
  have covered : Search.Covers (htableAt file 0) (nextRecno file 0)
      ⟨(htableAt file 0).bhead, (0 : Nat), 1⟩ := by
    rw [Search.Covers, counted.local_index, htableAt_bhead, counted.bhead, counted.htable,
      UInt32.lt_iff_toNat_lt, rootRoom_eq large small, UInt32.toNat_ofNat',
        Nat.mod_eq_of_lt (by omega)]
    exact free
  refine ⟨foundOffset ⟨(0 : Nat), sizeofHeadTable⟩ (htableAt file 0) (nextRecno file 0)
    ⟨(htableAt file 0).bhead, (0 : Nat), 1⟩, ?_⟩
  rw [nextSearch, flatrecsMakeOffsetToRecno, iterate_succ, searchRound_found covered]
  rfl

/-- The part under the lock of an area completes, if the callback does. -/
theorem completes_lockedData {bhandle : BlockLoc} {callback : LockCallback}
    (called : ∀ start : Nat, bhandle.offset = start → start + bhandle.size.toNat ≤ file.length →
      Completes platform file
        (callback handle bhandle (some (slice file start bhandle.size.toNat)))) :
    Completes platform file (lockedData handle bhandle callback) := by
  intro position
  refine CompletesFrom.keeping .ftell trivial fun saved position => ?_
  refine CompletesFrom.fseek_bind (fun start same => ?_) ?_
  · dsimp only
    rw [if_pos rfl]
    refine CompletesFrom.fread_bind (fun inside position => ?_) fun _ => ?_
    · refine CompletesFrom.bind (called start same inside _) UnderFaults.nothing ?_
      rintro ⟨changed, buffer⟩ after past - position
      apply CompletesFrom.of_answers
      cases changed with
      | false => exact fun _ => trivial
      | true =>
        intro found
        cases found with
        | false => exact fun _ => trivial
        | true =>
          intro wrote
          cases wrote <;> exact fun _ => trivial
    · exact CompletesFrom.of_answers fun _ => trivial
  · exact CompletesFrom.of_answers fun _ => trivial

/-- What an insertion does under the lock completes, if the user callback always answers. -/
theorem Represents.completes_locked (represents : Represents table file) (free : table.Free)
    {user : FlatrecsUseNewRecord}
    (answers : ∀ htable offset, (user handle htable offset).Answers fun _ => True) :
    Completes platform file (lockedData handle ⟨(0 : Nat), sizeofHeadTable⟩
      (flatrecsGetNextOffsetLockCallback (fuel + 1) user)) := by
  refine completes_lockedData fun start same _ position => ?_
  obtain rfl : 0 = start := Int.natCast_inj.mp same
  obtain ⟨offset, found⟩ := represents.search_ret free handle fuel
  apply CompletesFrom.of_answers
  change (note _ >>= fun _ => nextSearch (fuel + 1) handle file >>= _).Answers _
  rw [found]
  intro _ _
  change (user handle _ offset >>= _).Answers _
  exact answers_bind (answers _ _) fun _ _ _ => trivial

/-- An insertion completes, if the user callback always answers. -/
theorem Represents.completes (represents : Represents table file) (free : table.Free)
    {user : FlatrecsUseNewRecord} (opened : handle.file.isSome = true)
    (answers : ∀ htable offset, (user handle htable offset).Answers fun _ => True) :
    Completes platform file (flatrecsGetNextOffset (fuel + 1) handle (0 : Nat) user) := by
  have released {rval : RndError} :
      (release ⟨(0 : Nat), sizeofHeadTable⟩ rval).Answers fun _ => True := by
    intro reply
    cases reply with
    | none => trivial
    | some errno => exact fun _ => trivial
  intro position
  have asserted : cAssert handle.file.isSome = .ret () := by
    rw [opened]
    rfl
  rw [flatrecsGetNextOffset, asserted, ret_bind, rndLockArea_eq]
  refine CompletesFrom.keeping .primeHandle trivial fun _ position => ?_
  refine CompletesFrom.keeping .primeHandle trivial fun _ position => ?_
  refine CompletesFrom.keeping (.fcntl _ _ _) trivial fun reply position => ?_
  cases reply with
  | some errno =>
    apply CompletesFrom.of_answers
    dsimp only
    split
    · trivial
    · exact fun _ => trivial
  | none =>
    refine CompletesFrom.bind (represents.completes_locked free answers _) UnderFaults.nothing
      fun rval after past _ _ => ?_
    exact CompletesFrom.of_answers released

end Completion

/-! ## Insertions and crashes -/

/-- A call that inserts a record: of which process, on which platform, and with which callback. A
search for a record in the root takes one round. -/
structure Insertion (recSize : UInt32) extends Storage recSize where
  platform : Platform
  handle : Rndh
  fuel : Nat
  opened : handle.file.isSome = true
  durable : platform.Durable
  whole : platform.WholeNumbers
  answers : ∀ htable offset, (user handle htable offset).Answers fun _ => True

namespace Insertion

variable {recSize : UInt32} (insertion : Insertion recSize)

def program : Prog RndError :=
  flatrecsGetNextOffset (insertion.fuel + 1) insertion.handle (0 : Nat) insertion.user

/-- The calls of the insertion. -/
def past (world : World) : List (Moment Call Answer World) :=
  log (posix insertion.platform) insertion.program world

/-- The insertion is acknowledged: the call succeeded and the callback counted its record. -/
def acknowledged (world : World) (rval : RndError) : Bool :=
  rval = .success ∧ Event.answered true ∈ events (insertion.past world)

end Insertion

/-- An insertion that was begun, and whether it was acknowledged. -/
structure Attempt (recSize : UInt32) where
  record : Record recSize
  acknowledged : Bool
deriving DecidableEq

section Lives

variable {chunkSize recSize : UInt32} {table : RecordTable chunkSize recSize} {world : World}

theorem Platform.WholeNumbers.endedAt {platform : Platform} (whole : platform.WholeNumbers)
    (time : Nat) : (platform.endedAt time).WholeNumbers :=
  endedAt_faults whole (.inl (Nat.zero_le _))

/-- An insertion on a stream that holds nothing leaves it so. -/
theorem Insertion.drained (insertion : Insertion recSize) (empty : world.held = []) {after : World}
    {rval : RndError} (completed : run (posix insertion.platform) insertion.program world =
      (.ok rval, after)) : after.held = [] := by
  have asserted : cAssert insertion.handle.file.isSome = .ret () := by
    rw [insertion.opened]
    rfl
  rw [program, flatrecsGetNextOffset, asserted, ret_bind] at completed
  obtain ⟨_, primed, priming, rest⟩ := run_bind_inv _ completed
  exact rndLockArea_drained (aside_drained .primeHandle trivial empty priming) rest

/-- The table with the record of an insertion or without it. -/
def Represents.Either (table : RecordTable chunkSize recSize) (free : table.Free)
    (record : Record recSize) (file : List UInt8) : Prop :=
  Represents table file ∨ Represents (table.insert record free) file

/-- In front of every call of an insertion, the file holds the table with the record or without it,
with what the stream holds and without it. -/
theorem Represents.ended (represents : Represents table world.file) (empty : world.held = [])
    (free : table.Free) (insertion : Insertion recSize) {moment : Moment Call Answer World}
    (among : moment ∈ insertion.past world) :
    Represents.Either table free insertion.record moment.before.file ∧
      Represents.Either table free insertion.record moment.before.disk := by
  have allowed {platform : Platform} (stores : Stores platform insertion.record.val insertion.user)
      (whole : platform.WholeNumbers) : UnderFaults platform world.file insertion.program
      fun _ after _ => Represents.Either table free insertion.record after :=
    (represents.insertion free stores whole).mono fun _ _ _ inserts => inserts.imp_left And.left
  have completes (platform : Platform) : Completes platform world.file insertion.program :=
    represents.completes free insertion.opened insertion.answers
  have each := at_every_moment (Represents.Either table free insertion.record) insertion.durable
    (fun time => allowed (insertion.stores _) (insertion.whole.endedAt time))
    (fun time => completes _)
    rfl
  obtain ⟨rval, after, completed⟩ := completes insertion.platform _ world rfl rfl
    (insertion.durable.lossless _)
  have last := allowed (insertion.stores _) insertion.whole world rfl rval after completed
    (insertion.durable.lossless _)
  have disk := (@on_disk _ _ (Represents.Either table free insertion.record) _ _
    (.inl (World.file_of_empty empty ▸ represents)) each (by rw [completed]; exact last)).1
  exact ⟨each moment among, disk moment among⟩

/-- The header of the file that holds a table is accepted by an opening. -/
theorem Represents.accepted {file : List UInt8} (represents : Represents table file) :
    blocksValidateHeadFile (some (RndHeadFile.ofBytes (slice file 0 sizeofHeadFile))) = .success := by
  let head : RndHeadFile := { freshHead chunkSize recSize with
    thead := ⟨recSize, UInt32.ofNat table.records.length⟩ }
  have front : slice file 0 sizeofHeadFile = head.toBytes := by
    change slice file 0 (64 + 8) = _
    rw [← slice_append_slice, represents.counted.head, Nat.zero_add, represents.fileHead]
    simp only [RndHeadFile.toBytes, RndHeadTable.toBytes, List.append_assoc]
    rfl
  have positive : chunkSize ≠ 0 := by
    rintro rfl
    have length := congrArg List.length represents.counted.head
    rw [slice_length, represents.counted.length, RndHeadTable.toBytes_length] at length
    exact absurd length (by decide)
  have fits : BlockLoc.Fits ⟨0, 0⟩ := by simp [BlockLoc.Fits]
  have chain : InfoChain.ofBytes (InfoChain.mk 0 0 0).toBytes = InfoChain.mk 0 0 0 := by decide
  have read : RndHeadFile.ofBytes head.toBytes = head := RndHeadFile.ofBytes_toBytes fits chain rfl
  rw [front, read]
  simp [blocksValidateHeadFile, head, freshHead, positive, BType.code]

/-- The opening of an existing file writes nothing. -/
theorem keeping_blocksFileOpen {flags chunkSize recSize : UInt32}
    (existing : rndCreate flags = false) :
    (blocksFileOpen flags chunkSize recSize).Only Call.Keeping := by
  rw [blocksFileOpen, existing]
  refine only_bind (only_perform trivial) fun _ => only_bind (only_perform rfl) fun opened => ?_
  cases opened with
  | none => exact only_bind (only_perform trivial) fun _ => trivial
  | some stream =>
    have closed {result : RndError × Rndh} :
        (fclose stream >>= fun _ => pure result : Prog (RndError × Rndh)).Only Call.Keeping :=
      only_bind (only_perform trivial) fun _ => trivial
    refine only_bind (only_bind (only_perform trivial) fun read => ?_) ?_
    · cases read with
      | none => exact only_bind (only_perform trivial) fun _ => trivial
      | some bytes => trivial
    · rintro ⟨rval, handle⟩
      dsimp only
      split
      · exact closed
      · split
        · exact closed
        · trivial

/-- An existing file is opened without a change. -/
theorem blocksFileOpen_keeps {platform : Platform} {flags chunkSize recSize : UInt32}
    (existing : rndCreate flags = false) (empty : world.held = []) :
    (run (posix platform) (blocksFileOpen flags chunkSize recSize) world).2.held = [] ∧
      (run (posix platform) (blocksFileOpen flags chunkSize recSize) world).2.file = world.file :=
  (idle_of_keeping (keeping_blocksFileOpen existing) empty).2

/-- The slots that the searches for the numbers of the records deliver hold the records. -/
def FoundByNumber (table : RecordTable chunkSize recSize) (file : List UInt8) : Prop :=
  ∀ index (within : index < table.records.length) (platform : Platform) (fuel : Nat) (handle : Rndh),
    UnderFaults platform file (flatrecsMakeOffsetToRecno fuel handle ⟨(0 : Nat), sizeofHeadTable⟩
      (htableAt file 0) (UInt32.ofNat (index + 1)))
      fun result after _ => result.1 = .success ∧ after = file ∧
        slice file result.2.toNat (recSize.toNat + 1) = table.records[index].val

/-- What becomes of a table: it has the records of the insertions that were acknowledged behind
those it had, and of no others than those that were begun. -/
structure Survives (table : RecordTable chunkSize recSize) (past : List (Attempt recSize))
    (file : List UInt8) (kept : List (Attempt recSize)) (final : RecordTable chunkSize recSize) :
    Prop where
  records : final.records = table.records ++ kept.map Attempt.record
  begun : kept.Sublist past
  acknowledged : (past.filter Attempt.acknowledged).Sublist kept
  represents : Represents final file

/-- One more attempt: its record is there, or it was not acknowledged and its record is not. -/
theorem Survives.next {past kept : List (Attempt recSize)} {file after : List UInt8}
    {final : RecordTable chunkSize recSize} (survives : Survives table past file kept final)
    (free : final.Free) (attempt : Attempt recSize)
    (either : Represents final after ∧ attempt.acknowledged = false ∨
      Represents (final.insert attempt.record free) after) :
    ∃ kept' final', Survives table (past ++ [attempt]) after kept' final' := by
  rcases either with ⟨still, failed⟩ | inserted
  · refine ⟨kept, final, survives.records, ?_, ?_, still⟩
    · exact survives.begun.trans (List.sublist_append_left _ _)
    · rw [List.filter_append, List.filter_singleton, failed]
      simpa using survives.acknowledged
  · refine ⟨kept ++ [attempt], _, ?_, survives.begun.append_right _, ?_, inserted⟩
    · change final.records ++ [attempt.record] = _
      rw [survives.records, List.map_append, List.append_assoc]
      rfl
    · rw [List.filter_append]
      exact survives.acknowledged.append List.filter_sublist

/-- A table that has room for every insertion begun has room for the next one. -/
theorem Survives.free {past kept : List (Attempt recSize)} {file : List UInt8}
    {final : RecordTable chunkSize recSize} (survives : Survives table past file kept final)
    (room : table.records.length + past.length < rootRoom chunkSize recSize) : final.Free := by
  have fewer := survives.begun.length_le
  rw [RecordTable.Free, survives.records, List.length_append, List.length_map]
  omega

theorem Represents.found {file : List UInt8} (represents : Represents table file) :
    FoundByNumber table file := by
  intro index within platform fuel handle
  refine (represents.lookup within).mono ?_
  rintro _ after _ ⟨rfl, rfl, -⟩
  exact ⟨rfl, rfl, represents.slots index within⟩

end Lives

/-! ## A crash behind an insertion -/

def firstRecord : Record 3 := ⟨[82, 1, 2, 3], rfl⟩

def secondRecord : Record 3 := ⟨[82, 4, 5, 6], rfl⟩

end Recnodb
