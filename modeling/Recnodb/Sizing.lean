import Recnodb.Creation
import Recnodb.Growth

/-!
# The size of a new block

The search at the end of its chain asks for a block of whole chunks. The size it
needs must hold the header, the records before the requested one and the
requested one itself; the size it asks for counts only the records before it, in
32-bit arithmetic. The two agree in effect exactly when the rounding up to chunks
makes up for what was left out, and nothing wraps.
-/

namespace Recnodb

open Interaction Octets Program

/-! ## Rounding up -/

/-- The least multiple of a chunk that is not below a size. -/
def roundUp (chunk size : Nat) : Nat := chunk * (size / chunk + if size % chunk ≠ 0 then 1 else 0)

section RoundUp

variable {chunk : Nat} (positive : 0 < chunk) (size : Nat)
include positive

theorem le_roundUp : size ≤ roundUp chunk size := by
  have split := Nat.div_add_mod size chunk
  have below := Nat.mod_lt size positive
  rw [roundUp, Nat.mul_add]
  split_ifs with exceeds <;> omega

theorem roundUp_lt : roundUp chunk size < size + chunk := by
  have split := Nat.div_add_mod size chunk
  rw [roundUp, Nat.mul_add]
  split_ifs with exceeds <;> omega

omit positive in
theorem dvd_roundUp : chunk ∣ roundUp chunk size := Dvd.intro _ rfl

theorem roundUp_least {multiple : Nat} (divides : chunk ∣ multiple) (enough : size ≤ multiple) :
    roundUp chunk size ≤ multiple := by
  obtain ⟨count, rfl⟩ := divides
  obtain ⟨chunks, rounded⟩ := @dvd_roundUp chunk size
  have close := roundUp_lt positive size
  rw [rounded] at close ⊢
  -- a larger multiple would be a whole chunk larger
  have fewer : chunks < count + 1 := by
    by_contra more
    have := Nat.mul_le_mul_left chunk (Nat.not_lt.mp more)
    rw [Nat.mul_add, Nat.mul_one] at this
    omega
  exact Nat.mul_le_mul_left chunk (Nat.le_of_lt_succ fewer)

end RoundUp

/-! ## The size that is requested -/

/-- The size computed in 32 bits: the bytes of the records before the requested
one wrap, and so does their rounding up. -/
theorem newBlockSize_toNat {recsize recno startRec chunkSize : UInt32} (positive : chunkSize ≠ 0) :
    (newBlockSize recsize recno startRec chunkSize).toNat =
      roundUp chunkSize.toNat (recsize.toNat * (recno - startRec).toNat % 2 ^ 32) % 2 ^ 32 := by
  have chunk : 0 < chunkSize.toNat := Nat.pos_of_ne_zero fun zero => positive (UInt32.toNat.inj zero)
  have bytes : (recsize * (recno - startRec)).toNat =
      recsize.toNat * (recno - startRec).toNat % 2 ^ 32 := UInt32.toNat_mul ..
  rw [newBlockSize, UInt32.toUInt32_toInt32, UInt32.toNat_mul, UInt32.toNat_add, UInt32.toNat_div,
    bytes, roundUp,
    Nat.mul_comm]
  have exceeds : (recsize * (recno - startRec) % chunkSize ≠ 0) ↔
      recsize.toNat * (recno - startRec).toNat % 2 ^ 32 % chunkSize.toNat ≠ 0 := by
    rw [← bytes, ← UInt32.toNat_mod, Ne, ← UInt32.toNat_inj]
    rfl
  rw [Nat.mul_mod_mod]
  split_ifs <;> simp_all

/-- The bytes that a block needs for a record with so many others before it. -/
def blockNeed (slot before : Nat) : Nat := 32 + slot * (before + 1)

/-- The requested size has room for the record. -/
def Suffices (chunk slot before size : Nat) : Prop :=
  0 < size ∧ chunk ∣ size ∧ before < (size - 32) / slot

theorem suffices_need {chunk slot before size : Nat} (positive : 0 < slot)
    (enough : Suffices chunk slot before size) : blockNeed slot before ≤ size := by
  have counted : before + 1 ≤ (size - 32) / slot := enough.2.2
  have room := (Nat.le_div_iff_mul_le positive).mp counted
  rw [blockNeed, Nat.mul_comm]
  have := Nat.mul_le_mul_right slot (Nat.le_add_left 1 before)
  omega

/-- The rounding up of the records before makes up for the header and the record
itself, and fits the 32-bit field. -/
def Covering (chunk slot before : Nat) : Prop :=
  roundUp chunk (slot * before) < 2 ^ 32 ∧ blockNeed slot before ≤ roundUp chunk (slot * before)

/-- The size computed in 32 bits suffices exactly when the rounding covers. -/
theorem suffices_iff_covering {chunk slot before : Nat} (chunkBound : chunk < 2 ^ 32)
    (positive : 0 < chunk) (some : 0 < slot) :
    Suffices chunk slot before (roundUp chunk (slot * before % 2 ^ 32) % 2 ^ 32) ↔
      Covering chunk slot before := by
  constructor
  · intro enough
    have need := suffices_need some enough
    have below := Nat.mod_lt (roundUp chunk (slot * before % 2 ^ 32)) (by decide : 0 < 2 ^ 32)
    -- the product did not wrap, or the need would not fit
    have exact : slot * before % 2 ^ 32 = slot * before := by
      apply Nat.mod_eq_of_lt
      rw [blockNeed, Nat.mul_add] at need
      omega
    rw [exact] at need below
    -- the rounding did not wrap, or the rest would be less than a chunk
    have fits : roundUp chunk (slot * before) < 2 ^ 32 := by
      by_contra wrapped
      have close := roundUp_lt positive (slot * before)
      have rest : roundUp chunk (slot * before) % 2 ^ 32 = roundUp chunk (slot * before) - 2 ^ 32 :=
        by
        omega
      rw [blockNeed, Nat.mul_add] at need
      omega
    rw [Nat.mod_eq_of_lt fits] at need
    exact ⟨fits, need⟩
  · rintro ⟨fits, need⟩
    have exact : slot * before % 2 ^ 32 = slot * before :=
      Nat.mod_eq_of_lt (Nat.lt_of_le_of_lt (le_roundUp positive _) fits)
    rw [exact, Nat.mod_eq_of_lt fits]
    refine ⟨?_, dvd_roundUp _, ?_⟩
    · rw [blockNeed] at need
      omega
    · have counted : before + 1 ≤ (roundUp chunk (slot * before) - 32) / slot := by
        rw [Nat.le_div_iff_mul_le some]
        rw [blockNeed, Nat.mul_comm] at need
        omega
      exact counted

/-! ## The search at the end of a chain -/

/-- The search asks for a block. -/
def Event.isRequest : Event → Bool
  | .requested _ _ => true
  | _ => false

/-- A block was appended. -/
def Event.isAppend : Event → Bool
  | .appendLeft .success _ => true
  | _ => false

/-- A search past so many covered records asks for a block that has room for the
record, if any size does, and appends at most one; otherwise it asks for none and
returns an error. -/
def SizedAsNeeded (platform : Platform) (world : World) (fuel : Nat) (handle : Rndh)
    (bloc : BlockLoc) (htable : RndHeadTable) (recno : UInt32) (covered : Nat) : Prop :=
  let search := flatrecsMakeOffsetToRecno fuel handle bloc htable recno
  let past := events (log (posix platform) search world)
  let chunk := handle.headFile.fhead.chunkSize.toNat
  let slot := htable.thead.recSize.toNat + 1
  let before := recno.toNat - (covered + 1)
  (roundUp chunk (blockNeed slot before) < 2 ^ 32 →
    (∃ chainEnd bdef, past.find? Event.isRequest = some (.requested chainEnd bdef) ∧
      Suffices chunk slot before bdef.blockSize.toNat) ∧
    (past.filter Event.isAppend).length ≤ 1) ∧
  (2 ^ 32 ≤ roundUp chunk (blockNeed slot before) →
    past.find? Event.isRequest = none ∧
      ∃ code offset, code ≠ .success ∧ (run (posix platform) search world).1 = .ok (code, offset))

section Search

variable {memory : Nat → Nat → UInt8} {handle : Rndh} {bloc : BlockLoc} {htable : RndHeadTable}
variable {recno : UInt32}

/-- Where no block can be placed, a search at the end of its chain appends none,
however long it goes on. -/
theorem misaligned_never_appends (valid : blocksValidateHandle (some handle) = .success)
    {search : Search} (last : search.iblock.nextBlock.offset = 0) (fuel : Nat) (world : World)
    (misaligned : ¬ Aligned handle world.file) :
    (events (log (smooth memory) (searchFrom fuel handle bloc htable recno search) world)).filter
      Event.isAppend = [] := by
  induction fuel generalizing search world with
  | zero => rfl
  | succ fuel ih =>
    by_cases covered : search.Covers htable recno
    · rw [events_covered covered]
      rfl
    · obtain ⟨outcome, world', completed, rfl, same, passed⟩ :=
        @searchRound_refused memory _ handle bloc _ _ _ valid misaligned covered last world rfl
      rw [events_round completed, passed, List.filter_append,
        @ih (search.advanced htable) last world' (same ▸ misaligned)]
      rfl

/-- A valid handle has a chunk size. -/
theorem chunk_nonzero (valid : blocksValidateHandle (some handle) = .success) :
    handle.headFile.fhead.chunkSize ≠ 0 := by
  intro zero
  have invalid : blocksValidateHeadFile (some handle.headFile) = .invalidHeadFile :=
    if_pos (.inl zero)
  rw [blocksValidateHandle, invalid] at valid
  split at valid <;> exact RndError.noConfusion valid

/-- A chain on disk that a search can extend: the root is the block that the copy
of the header was read from, and the header of the last block lies inside the
file, which an `off_t` can measure. -/
structure Extendable (file : List UInt8) (bloc : BlockLoc) (htable : RndHeadTable) (root : Nat)
    (rest : List Nat) : Prop where
  chain : IsChain file (root :: rest)
  copy : htable.bhead.Alike (headAt file root)
  place : bloc.offset = root
  tail : ∀ last, (root :: rest).getLast? = some last →
    last + 32 + overrun (headAt file last).blockType ≤ file.length
  bounded : file.length < 2 ^ 63

theorem Extendable.starts {file : List UInt8} {root : Nat} {rest : List Nat}
    (table : Extendable file bloc htable root rest) :
    StandsAt file root 1 ⟨htable.bhead, bloc.offset, 1⟩ :=
  ⟨table.copy, table.place, rfl⟩

/-- A record size for which slots wrap leaves no record outside a chain. -/
theorem recsize_exact {file : List UInt8} {root : Nat} {rest : List Nat}
    (beyond : (capacities file htable (root :: rest)).sum < recno.toNat) :
    (flatrecsFullRecsize htable).toNat = htable.thead.recSize.toNat + 1 := by
  rw [flatrecsFullRecsize, UInt32.toNat_add, UInt32.toNat_one]
  refine Nat.mod_eq_of_lt ?_
  by_contra wraps
  have bound := htable.thead.recSize.toNat_lt
  have zero : flatrecsFullRecsize htable = 0 := by
    apply UInt32.toNat.inj
    rw [flatrecsFullRecsize, UInt32.toNat_add, UInt32.toNat_one, UInt32.toNat_zero]
    omega
  have endless : capacityAt file htable root = 2 ^ 32 - 1 := by
    rw [capacityAt, flatrecsGetRecordCapacity, zero, if_neg (by decide)]
    decide
  have last := recno.toNat_lt
  rw [capacities_cons, List.sum_cons, endless] at beyond
  omega

/-- How many records a new block holds. -/
theorem capacity_newInfoBlock {asked : RndBlockDef} (data : asked.blockType = .data)
    (positive : 0 < (flatrecsFullRecsize htable).toNat) (large : 32 ≤ asked.blockSize.toNat) :
    (flatrecsGetRecordCapacity htable (newInfoBlock asked)).toNat =
      (asked.blockSize.toNat - 32) / (flatrecsFullRecsize htable).toNat := by
  have fits : (32 : UInt16).toUInt32 ≤ asked.blockSize := UInt32.le_iff_toNat_le.mpr large
  have header : (newInfoBlock asked).bytesToData = 32 := by
    rw [newInfoBlock, data]
    rfl
  have some : flatrecsFullRecsize htable > 0 := by
    rw [gt_iff_lt, UInt32.lt_iff_toNat_lt]
    exact positive
  rw [flatrecsGetRecordCapacity, header, if_pos some, UInt32.toNat_div, newInfoBlock,
    UInt32.toNat_sub_of_le _ _ fits]
  rfl

/-- The events of a search past the end of its chain: it asks for a block of the
size computed in 32 bits, and if that size is covering it appends at most one. -/
theorem search_requests {file : List UInt8} {root : Nat} {rest : List Nat} {fuel : Nat}
    (valid : blocksValidateHandle (some handle) = .success)
    (table : Extendable file bloc htable root rest)
    (beyond : (capacities file htable (root :: rest)).sum < recno.toNat)
    (enough : rest.length < fuel) (world : World) (same : world.file = file) :
    ∃ chainEnd asked later,
      events (log (smooth memory) (flatrecsMakeOffsetToRecno fuel handle bloc htable recno) world) =
        .requested chainEnd asked :: later ∧
      asked.blockSize.toNat = roundUp handle.headFile.fhead.chunkSize.toNat
        ((htable.thead.recSize.toNat + 1) *
          (recno.toNat - ((capacities file htable (root :: rest)).sum + 1)) % 2 ^ 32) % 2 ^ 32 ∧
      (Covering handle.headFile.fhead.chunkSize.toNat (htable.thead.recSize.toNat + 1)
          (recno.toNat - ((capacities file htable (root :: rest)).sum + 1)) →
        (later.filter Event.isAppend).length ≤ 1) := by
  obtain ⟨spare, rfl⟩ : ∃ spare, fuel = spare + 1 + rest.length := ⟨fuel - rest.length - 1, by omega⟩
  obtain ⟨there, last, start, isLast, total, stands, behind, past, moves⟩ :=
    @walk_end memory file handle bloc htable recno rest root 1 _ table.chain table.starts (by omega)
  obtain ⟨world', same', moved⟩ := moves world same
  obtain ⟨lastInside, free⟩ := table.chain.last isLast
  have number : (there.advanced htable).startRec.toNat =
      (capacities file htable (root :: rest)).sum + 1 := by
    rw [advanced_start behind past, stands.capacity, stands.start, total, Nat.add_comm]
  have size : (requestedBlock handle htable recno (there.advanced htable)).blockSize.toNat =
      roundUp handle.headFile.fhead.chunkSize.toNat
        ((htable.thead.recSize.toNat + 1) *
          (recno.toNat - ((capacities file htable (root :: rest)).sum + 1)) % 2 ^ 32) % 2 ^ 32 := by
    rw [requestedBlock, newBlockSize_toNat (chunk_nonzero valid), recsize_exact beyond,
      UInt32.toNat_sub_of_le _ _ (advanced_behind behind past), number]
  have unlinked : there.iblock.nextBlock.offset = 0 := stands.head.next.trans free
  rw [flatrecsMakeOffsetToRecno, (moved spare.succ).2, List.nil_append]
  by_cases aligned : Aligned handle file
  · obtain ⟨outcome, after, completed, rfl, passed, extra, length, written⟩ :=
      @searchRound_grows memory file handle bloc htable recno last there valid aligned table.bounded
        stands.place past unlinked free (table.tail last isLast) world' same'
    refine ⟨_, _, _, (events_round completed).trans (congrArg (· ++ _) passed), size, ?_⟩
    intro covering
    have positive : 0 < htable.thead.recSize.toNat + 1 := Nat.succ_pos _
    have chunk : 0 < handle.headFile.fhead.chunkSize.toNat :=
      Nat.pos_of_ne_zero fun zero => chunk_nonzero valid (UInt32.toNat.inj zero)
    have enough := (suffices_iff_covering handle.headFile.fhead.chunkSize.toNat_lt chunk
      positive).mpr covering
    rw [← size] at enough
    have need := suffices_need positive enough
    rw [blockNeed] at need
    have stillBehind : Search.Behind recno
        ⟨newInfoBlock (requestedBlock handle htable recno (there.advanced htable)), file.length,
          (there.advanced htable).startRec⟩ := advanced_behind behind past
    have covers : Search.Covers htable recno
        ⟨newInfoBlock (requestedBlock handle htable recno (there.advanced htable)), file.length,
          (there.advanced htable).startRec⟩ := by
      refine (covers_iff stillBehind).mpr ?_
      dsimp only
      rw [capacity_newInfoBlock rfl (by rw [recsize_exact beyond]; exact positive) (by omega),
        recsize_exact beyond, number]
      exact enough.2.2
    rw [events_covered covers]
    exact Nat.le_refl 1
  · obtain ⟨outcome, after, completed, rfl, unchanged, passed⟩ :=
      @searchRound_refused memory file handle bloc htable recno there valid aligned past unlinked
        world' same'
    refine ⟨_, _, _, (events_round completed).trans (congrArg (· ++ _) passed), size, fun _ => ?_⟩
    have none := @misaligned_never_appends memory handle bloc htable recno valid
      (there.advanced htable) unlinked spare after (unchanged ▸ aligned)
    simp [none, Event.isAppend]

end Search

/-- For every record past the end of its chain, the new block is as large as
needed if and only if the rounding up of the bytes before the record covers the
header and the record itself within 32 bits. -/
theorem sizedAsNeeded_iff_covering {platform : Platform} {world : World} {fuel : Nat}
    {handle : Rndh} {bloc : BlockLoc} {htable : RndHeadTable} {root : Nat} {rest : List Nat}
    {recno : UInt32} (valid : blocksValidateHandle (some handle) = .success)
    (table : Extendable world.file bloc htable root rest)
    (beyond : (capacities world.file htable (root :: rest)).sum < recno.toNat)
    (enough : rest.length < fuel)
    (calm : (run (posix platform) (flatrecsMakeOffsetToRecno fuel handle bloc htable recno)
      world).2.failures = world.failures) :
    SizedAsNeeded platform world fuel handle bloc htable recno
        (capacities world.file htable (root :: rest)).sum ↔
      Covering handle.headFile.fhead.chunkSize.toNat (htable.thead.recSize.toNat + 1)
        (recno.toNat - ((capacities world.file htable (root :: rest)).sum + 1)) := by
  have chunk : 0 < handle.headFile.fhead.chunkSize.toNat :=
    Nat.pos_of_ne_zero fun zero => chunk_nonzero valid (UInt32.toNat.inj zero)
  have positive : 0 < htable.thead.recSize.toNat + 1 := Nat.succ_pos _
  obtain ⟨chainEnd, asked, later, passed, size, single⟩ :=
    @search_requests platform.memory handle bloc htable recno world.file root rest fuel valid table
      beyond enough world rfl
  obtain ⟨-, logs⟩ := run_calm calm
  rw [SizedAsNeeded, logs, passed]
  have requested : (Event.requested chainEnd asked :: later).find? Event.isRequest =
      some (.requested chainEnd asked) := rfl
  have appends : ((Event.requested chainEnd asked :: later).filter Event.isAppend).length =
      (later.filter Event.isAppend).length := rfl
  rw [requested, appends]
  constructor
  · rintro ⟨possible, impossible⟩
    rcases Nat.lt_or_ge (roundUp handle.headFile.fhead.chunkSize.toNat
      (blockNeed (htable.thead.recSize.toNat + 1)
        (recno.toNat - ((capacities world.file htable (root :: rest)).sum + 1)))) (2 ^ 32) with
      fits | large
    · obtain ⟨⟨_, _, ⟨⟩, enoughRoom⟩, -⟩ := possible fits
      rw [size] at enoughRoom
      exact (suffices_iff_covering handle.headFile.fhead.chunkSize.toNat_lt chunk
        positive).mp enoughRoom
    · obtain ⟨none, -⟩ := impossible large
      exact absurd none (by simp)
  · intro covering
    refine ⟨fun _ => ⟨⟨chainEnd, asked, rfl, ?_⟩, single covering⟩, fun large => ?_⟩
    · rw [size]
      exact (suffices_iff_covering handle.headFile.fhead.chunkSize.toNat_lt chunk
        positive).mpr covering
    · -- the covering size is a multiple that fits, so the least one fits as well
      have least := roundUp_least chunk _ (dvd_roundUp _) covering.2
      have fits := covering.1
      omega

/-! ## A full root -/

theorem freshWorld_extendable : Extendable (freshWorld 80 3).file ⟨0, 64⟩ (freshTable 80 3) 0 [] where
  chain := by
    constructor <;> decide +kernel
  copy := by
    constructor <;> decide +kernel
  place := rfl
  tail := by
    rintro last ⟨⟩
    decide +kernel
  bounded := by decide +kernel

/-- The root holds two records. A request for record 22 leaves 19 records before
it: 76 bytes, rounded up to 80, where 112 are needed. -/
theorem sizedAsNeeded_iff_covering_full :
    SizedAsNeeded (Platform.sound fun _ _ => 0) (freshWorld 80 3) 1 (freshHandle 0 80 3) ⟨0, 64⟩
        (freshTable 80 3) 22 2 ↔
      Covering (freshHandle 0 80 3).headFile.fhead.chunkSize.toNat
        ((freshTable 80 3).thead.recSize.toNat + 1) ((22 : UInt32).toNat - (2 + 1)) := by
  have total : (capacities (freshWorld 80 3).file (freshTable 80 3) [0]).sum = 2 := by
    decide +kernel
  have calm : (run (posix (Platform.sound fun _ _ => 0)) (flatrecsMakeOffsetToRecno 1
      (freshHandle 0 80 3) ⟨0, 64⟩ (freshTable 80 3) 22) (freshWorld 80 3)).2.failures =
      (freshWorld 80 3).failures := by decide +kernel
  have exact := sizedAsNeeded_iff_covering (by decide +kernel) freshWorld_extendable
    (by rw [total]; decide) (by decide) calm
  rw [total] at exact
  exact exact

/-- The first record past the root needs 36 bytes, so one chunk; a block of no
bytes is requested. -/
theorem third_record_requests_nothing :
    ¬ SizedAsNeeded (Platform.sound fun _ _ => 0) (freshWorld 80 3) 2 (freshHandle 0 80 3) ⟨0, 64⟩
      (freshTable 80 3) 3 2 := by
  rintro ⟨possible, -⟩
  obtain ⟨⟨chainEnd, bdef, requested, size, -⟩, -⟩ := possible (by decide)
  have first : (events (log (posix (Platform.sound fun _ _ => 0)) (flatrecsMakeOffsetToRecno 2
      (freshHandle 0 80 3) ⟨0, 64⟩ (freshTable 80 3) 3) (freshWorld 80 3))).find? Event.isRequest =
      some (.requested 0 { blockType := .data, blockSize := 0 }) := by decide +kernel
  rw [first] at requested
  obtain ⟨⟩ := requested
  exact absurd size (by decide)

end Recnodb
