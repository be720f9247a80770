import Recnodb.Interaction.Rounds
import Recnodb.SearchFaults
import Recnodb.Creation

/-!
# The end of the record search

Every round of the record search completes, and each one that goes on passes as many
records as the block in hand holds: the records before the one asked for can only run
out at blocks that hold some. A search that goes on forever has come to stay with
blocks that hold none, whatever the reason: they link to each other, or the end of the
chain cannot be extended and the failure is not looked at.
-/

namespace Recnodb

open Interaction Octets Program

/-! ## Rounds complete -/

section Answers

variable {α : Type} {offset : OffT} {size infoLen count : Nat} {block bytes : List UInt8}
variable {handle : Rndh} {bdef : RndBlockDef}

/-- The program delivers a value, whatever the platform answers. -/
abbrev Delivers (program : Prog α) : Prop := program.Answers fun _ => True

/-- Two parts in a row deliver a value if both do. -/
theorem delivers_bind {β : Type} {program : Prog α} {rest : α → Prog β}
    (first : Delivers program) (second : ∀ value, Delivers (rest value)) :
    Delivers (program >>= rest) := answers_bind first fun value _ => second value

/-- A call delivers its reply. -/
theorem delivers_issue {request : Call} : Delivers (issue request) := fun _ => trivial

/-- An assertion that holds delivers. -/
theorem delivers_assert {fact : Bool} (holds : fact = true) : Delivers (cAssert fact) := by
  rw [holds]
  trivial

/-- An error branch delivers. -/
theorem delivers_kept {value : α} : Delivers (keepErrno >>= fun _ => pure value) := fun _ => trivial

/-- The answer to a write delivers, whether it was made or not. -/
theorem delivers_outcome {written : Bool} :
    Delivers (if written then pure .success
      else keepErrno >>= fun _ => pure .systemError : Prog RndError) := by
  cases written
  · exact delivers_kept
  · trivial

/-- A read at an offset delivers. -/
theorem delivers_seekRead : Delivers (seekRead offset size) :=
  delivers_bind delivers_issue fun found => by
    cases found
    · trivial
    · exact delivers_issue

/-- The read of a header delivers. -/
theorem delivers_blocksReadBlockHead : Delivers (blocksReadBlockHead offset block infoLen) :=
  delivers_bind delivers_seekRead fun read => by
    cases read
    · exact delivers_kept
    · trivial

/-- Taking bytes from a buffer delivers. -/
theorem delivers_bufferBytes : Delivers (bufferBytes block count) := by
  unfold bufferBytes
  split
  · trivial
  · exact delivers_bind delivers_issue fun _ => trivial

/-- The write of a header delivers. -/
theorem delivers_blocksWriteBlockHead : Delivers (blocksWriteBlockHead offset block infoLen) :=
  delivers_bind delivers_issue fun found => by
    cases found
    · exact delivers_kept
    · exact delivers_bind delivers_bufferBytes fun _ =>
        delivers_bind delivers_issue fun _ => delivers_outcome

/-- An extension of the file with a valid handle delivers. -/
theorem delivers_blocksExtendFile {bytesToAdd : UInt64}
    (valid : blocksValidateHandle (some handle) = .success) :
    Delivers (blocksExtendFile handle bytesToAdd) := by
  apply delivers_bind (delivers_assert (by simp [valid]))
  intro _
  apply delivers_bind delivers_issue
  intro _
  apply delivers_bind delivers_issue
  intro found
  cases found with
  | false => exact delivers_kept
  | true =>
    apply delivers_bind delivers_issue
    intro location
    split
    · apply delivers_bind delivers_issue
      intro sought
      cases sought with
      | false => exact delivers_kept
      | true =>
        apply delivers_bind delivers_issue
        intro wrote
        cases wrote with
        | false => exact delivers_kept
        | true => exact delivers_bind delivers_issue fun _ => delivers_outcome
    · trivial

/-- The measurements of an append deliver. -/
theorem delivers_measureEnd : Delivers measureEnd := by
  apply delivers_bind delivers_issue
  intro original
  split
  · trivial
  · apply delivers_bind delivers_issue
    intro found
    cases found with
    | false => trivial
    | true => exact delivers_bind delivers_issue fun _ => trivial

/-- The header of a block that can be set is set. -/
theorem delivers_blocksSetInfoBlockStruct (settable : bdef.Settable) :
    Delivers (blocksSetInfoBlockStruct (blocksBytesToData bdef.blockType.code).toNat bdef) := by
  rw [blocksSetInfoBlockStruct_eq bdef settable]
  trivial

/-- The linking of a new block delivers if its header can be set. -/
theorem delivers_linkNewBlock (settable : bdef.Settable) : Delivers (linkNewBlock offset bdef) := by
  apply delivers_bind (delivers_blocksSetInfoBlockStruct settable)
  intro blockbuff
  apply delivers_bind delivers_blocksReadBlockHead
  intro read
  dsimp only
  split
  · trivial
  · split
    · trivial
    · exact delivers_blocksWriteBlockHead

/-- An append delivers the definition it was given, with a new place at most. -/
theorem appendBlock_places (valid : blocksValidateHandle (some handle) = .success)
    (settable : bdef.Settable) :
    (appendBlock handle bdef).Answers fun result => result.2.blockType = bdef.blockType ∧
      result.2.chunkSize = bdef.chunkSize := by
  apply answers_bind (delivers_assert (by simp [valid]))
  intro _ _
  apply answers_bind delivers_issue
  intro _ _
  apply answers_bind delivers_measureEnd
  intro ends _
  dsimp only
  split
  · apply answers_bind delivers_issue
    intro _ _
    split
    · exact answers_bind delivers_issue fun _ _ => ⟨rfl, rfl⟩
    · exact ⟨rfl, rfl⟩
  · have restored {original : OffT} {rval : RndError} {place : BlockLoc} :
        (fseek original .seekSet >>= fun _ =>
          if rval = .success then pure (.success, { bdef with newBlock := place })
          else pure (rval, bdef) : Prog (RndError × RndBlockDef)).Answers
          fun result => result.2.blockType = bdef.blockType ∧
            result.2.chunkSize = bdef.chunkSize :=
      answers_bind delivers_issue fun _ _ => by
        split <;> exact ⟨rfl, rfl⟩
    apply answers_bind (delivers_blocksExtendFile valid)
    intro rval _
    split
    · apply answers_bind
      · exact delivers_bind (delivers_blocksSetInfoBlockStruct settable) fun _ =>
          delivers_blocksWriteBlockHead
      · intro _ _
        exact restored
    · exact restored

/-- An extension of a chain delivers, with a valid handle and a header that can be set. -/
theorem delivers_blocksExtendChain (valid : blocksValidateHandle (some handle) = .success)
    (settable : bdef.Settable) : Delivers (blocksExtendChain handle offset bdef) := by
  apply delivers_bind delivers_issue
  intro _
  apply @answers_bind _ _ _ _ _ _ (fun _ => True) _ _
  · apply @answers_bind _ _ _ _ _ _ (fun result : RndError × RndBlockDef => result.2.Settable) _ _
      delivers_issue
    intro _ _
    apply answers_bind (appendBlock_places valid settable)
    rintro ⟨rval, placed⟩ ⟨type, chunk⟩
    apply answers_bind delivers_issue
    intro _ _
    change placed.Settable
    rw [RndBlockDef.Settable, type, chunk]
    exact settable
  · rintro ⟨rval, placed⟩ settable
    dsimp only
    split
    · trivial
    · exact delivers_bind (delivers_linkNewBlock settable) fun _ => trivial

/-- A round of the search delivers with a valid handle. -/
theorem delivers_searchRound {bloc : BlockLoc} {htable : RndHeadTable} {recno : UInt32}
    {search : Search} (valid : blocksValidateHandle (some handle) = .success) :
    Delivers (searchRound handle bloc htable recno search) := by
  have settable : (requestedBlock handle htable recno (search.advanced htable)).Settable :=
    RndBlockDef.Short.settable (.inl rfl)
  by_cases covered : search.Covers htable recno
  · rw [searchRound_found covered]
    trivial
  · by_cases last : search.iblock.nextBlock.offset = 0
    · rw [searchRound_end covered last]
      apply delivers_bind delivers_issue
      intro _
      apply delivers_bind (delivers_blocksExtendChain valid settable)
      rintro ⟨rval, linked⟩
      apply delivers_bind delivers_issue
      intro _
      dsimp only
      split
      · apply delivers_bind delivers_blocksReadBlockHead
        rintro ⟨code, newblock⟩
        dsimp only
        split <;> trivial
      · trivial
    · rw [searchRound_next covered last]
      apply delivers_bind delivers_seekRead
      intro read
      cases read with
      | none => exact delivers_kept
      | some bytes => trivial

end Answers

/-! ## What a round passes -/

section Rounds

variable {platform : Platform} {handle : Rndh} {bloc : BlockLoc} {htable : RndHeadTable}
variable {recno : UInt32} {search next : Search} {world after : World}

/-- The block in hand holds no record. -/
def Search.Empty (htable : RndHeadTable) (search : Search) : Prop :=
  flatrecsGetRecordCapacity htable search.iblock = 0

instance (htable : RndHeadTable) (search : Search) : Decidable (search.Empty htable) :=
  inferInstanceAs (Decidable (_ = _))

/-- The records between the first one of the block in hand and the one asked for. -/
def Search.ahead (recno : UInt32) (search : Search) : Nat :=
  recno.toNat - search.startRec.toNat

/-- A round that goes on does so behind the block in hand. -/
theorem searchRound_onward
    (round : run (posix platform) (searchRound handle bloc htable recno search) world =
      (.ok (.inl next), after)) :
    ¬ search.Covers htable recno ∧ next.startRec = (search.advanced htable).startRec := by
  by_cases covered : search.Covers htable recno
  · rw [searchRound_found covered] at round
    exact absurd (run_ret_inv _ round).1 (by simp)
  · refine ⟨covered, ?_⟩
    by_cases last : search.iblock.nextBlock.offset = 0
    · rw [searchRound_end covered last] at round
      obtain ⟨appended, rval, newBlock, -, -, outcomes⟩ := extendForRecord_cases _ round
      rcases outcomes with ⟨-, same⟩ | ⟨-, block, same⟩ | ⟨-, code, -, same⟩
      · obtain rfl := Sum.inl.inj same
        rfl
      · obtain rfl := Sum.inl.inj same
        rfl
      · exact absurd same Sum.inl_ne_inr
    · rw [searchRound_next covered last] at round
      obtain ⟨read, between, -, rest⟩ := run_bind_inv _ round
      cases read with
      | none =>
        obtain ⟨_, kept, -, delivered⟩ := run_bind_inv _ rest
        exact absurd (run_ret_inv _ delivered).1 Sum.inl_ne_inr
      | some bytes =>
        obtain rfl := Sum.inl.inj (run_ret_inv _ rest).1
        rfl

/-- A round that goes on passes the records of the block in hand. -/
theorem searchRound_passes (behind : search.Behind recno)
    (round : run (posix platform) (searchRound handle bloc htable recno search) world =
      (.ok (.inl next), after)) :
    next.Behind recno ∧ next.ahead recno ≤ search.ahead recno ∧
      (¬ search.Empty htable → next.ahead recno < search.ahead recno) := by
  obtain ⟨beyond, start⟩ := searchRound_onward round
  have advanced := advanced_start behind beyond
  have still := advanced_behind behind beyond
  have below : (search.advanced htable).startRec.toNat ≤ recno.toNat := still
  rw [Search.Behind, Search.ahead, Search.ahead, start]
  refine ⟨still, by omega, fun holds => ?_⟩
  have some : (flatrecsGetRecordCapacity htable search.iblock).toNat ≠ 0 := fun none =>
    holds (UInt32.toNat.inj none)
  omega

end Rounds

/-! ## Searches that end -/

section Ends

variable {platform : Platform} {world : World} {handle : Rndh} {bloc : BlockLoc}
variable {htable : RndHeadTable} {recno : UInt32}

/-- The loop of the search finishes. -/
def SearchEnds (platform : Platform) (world : World) (handle : Rndh) (bloc : BlockLoc)
    (htable : RndHeadTable) (recno : UInt32) : Prop :=
  ∃ fuel result after,
    run (posix platform) (flatrecsMakeOffsetToRecno fuel handle bloc htable recno) world =
      (.ok result, after)

/-- From some round on, every block that the search has in hand holds no record. -/
def StaysEmpty (platform : Platform) (world : World) (handle : Rndh) (bloc : BlockLoc)
    (htable : RndHeadTable) (recno : UInt32) : Prop :=
  ∃ first, ∀ count, first ≤ count → ∃ search state,
    roundAt (posix platform) (searchRound handle bloc htable recno) count
      ⟨htable.bhead, bloc.offset, 1⟩ world = some (search, state) ∧ search.Empty htable

/-- Every round completes, so the search finishes exactly when its rounds do not go on forever. -/
theorem searchEnds_iff_ended (valid : blocksValidateHandle (some handle) = .success) :
    SearchEnds platform world handle bloc htable recno ↔
      ∃ count, roundAt (posix platform) (searchRound handle bloc htable recno) count
        ⟨htable.bhead, bloc.offset, 1⟩ world = none := by
  apply iterate_completes_iff
  intro search state
  obtain ⟨outcome, after, completed, -⟩ :=
    run_answers (posix platform) (@delivers_searchRound _ _ _ _ search valid) state
  exact ⟨outcome, after, completed⟩

/-- A search that does not end has run out of records to pass, by induction on those ahead. -/
theorem staysEmpty_of_unending (valid : blocksValidateHandle (some handle) = .success)
    (numbered : 1 ≤ recno.toNat) (unending : ¬ SearchEnds platform world handle bloc htable recno) :
    StaysEmpty platform world handle bloc htable recno := by
  have forever : ∀ count, roundAt (posix platform) (searchRound handle bloc htable recno) count
      ⟨htable.bhead, bloc.offset, 1⟩ world ≠ none := fun count ended =>
    unending ((searchEnds_iff_ended valid).mpr ⟨count, ended⟩)
  exact @idle_from_some_round _ _ _ _ _ _ _ _ _ _ (Search.Behind recno)
    (Search.Empty htable) (Search.ahead recno)
    (fun _ _ _ _ behind round => searchRound_passes behind round) numbered forever

/-- A search that meets only blocks with room for a record ends. -/
theorem searchEnds_of_holding (valid : blocksValidateHandle (some handle) = .success)
    (numbered : 1 ≤ recno.toNat)
    (holds : ∀ count search state,
      roundAt (posix platform) (searchRound handle bloc htable recno) count
        ⟨htable.bhead, bloc.offset, 1⟩ world = some (search, state) → ¬ search.Empty htable) :
    SearchEnds platform world handle bloc htable recno := by
  by_contra unending
  obtain ⟨first, empty⟩ := staysEmpty_of_unending valid numbered unending
  obtain ⟨search, state, reached, none⟩ := empty first (Nat.le_refl _)
  exact holds first search state reached none

/-- The search ends if and only if it does not come to stay with empty blocks. -/
theorem searchEnds_iff_leavesEmpty (valid : blocksValidateHandle (some handle) = .success)
    (numbered : 1 ≤ recno.toNat) :
    SearchEnds platform world handle bloc htable recno ↔
      ¬ StaysEmpty platform world handle bloc htable recno := by
  constructor
  · rintro ends ⟨first, empty⟩
    obtain ⟨count, ended⟩ := (searchEnds_iff_ended valid).mp ends
    obtain ⟨search, state, reached, -⟩ := empty (count + first) (Nat.le_add_left _ _)
    rw [roundAt_ended ended] at reached
    exact Option.some_ne_none _ reached.symm
  · intro leaves
    by_contra unending
    exact leaves (staysEmpty_of_unending valid numbered unending)

end Ends

/-! ## A block too small for a record -/

/-- In a file that no block can be appended to, a search at the end of its chain with an empty
block in hand makes the same round again and again. -/
theorem search_repeats {platform : Platform} {world : World} {handle : Rndh} {bloc : BlockLoc}
    {htable : RndHeadTable} {recno : UInt32} {search : Search} (durable : platform.Durable)
    (misaligned : ¬ Aligned handle world.file) (last : search.iblock.nextBlock.offset = 0)
    (empty : search.Empty htable) (fuel : Nat) {result : RndError × OffT} {after : World} :
    run (posix platform) (searchFrom fuel handle bloc htable recno search) world ≠
      (.ok result, after) := by
  have beyond : ¬ search.Covers htable recno := by
    rw [Search.Covers, empty]
    exact UInt32.not_lt_zero
  have same : search.advanced htable = search := by
    rw [Search.advanced, empty, UInt32.add_zero]
  intro completed
  induction fuel generalizing world with
  | zero =>
    rw [searchFrom, iterate_zero, run_stop] at completed
    exact absurd (congrArg Prod.fst completed) (by simp)
  | succ fuel ih =>
    obtain ⟨less, outcome, between, more, round, rest⟩ := run_iterate_inv _ completed
    obtain rfl : fuel = less := Nat.succ.inj more
    obtain ⟨kept, again⟩ := searchRound_stuck misaligned beyond last world rfl outcome
      between round (durable.lossless _)
    obtain rfl : outcome = .inl search := again.trans (congrArg Sum.inl same)
    exact ih (by rwa [kept]) rest

/-- A file of one chunk whose root has no room for a record, and one byte behind it. -/
def crampedFile : List UInt8 := freshFile 80 59 ++ [0]

/-- The first record of a new table is found in the root. -/
theorem searchEnds_iff_leavesEmpty_first :
    SearchEnds (Platform.sound fun _ _ => 0) { disk := freshFile 80 3 } (freshHandle 0 80 3)
        ⟨0, 80⟩ (freshTable 80 3) 1 ↔
      ¬ StaysEmpty (Platform.sound fun _ _ => 0) { disk := freshFile 80 3 } (freshHandle 0 80 3)
        ⟨0, 80⟩ (freshTable 80 3) 1 :=
  searchEnds_iff_leavesEmpty (by decide +kernel) (by decide)

/-- Nothing fails there, and the search never ends. -/
theorem cramped_search_never_ends :
    ¬ ∀ (platform : Platform) (world : World) (handle : Rndh) (bloc : BlockLoc) (head : RndHeadFile)
        (recno : UInt32), blocksValidateHandle (some handle) = .success →
      blocksValidateHeadFile (some head) = .success → 1 ≤ recno.toNat →
      SearchEnds platform world handle bloc ⟨head.bhead, head.chead, head.thead⟩ recno := by
  intro always
  obtain ⟨fuel, result, after, completed⟩ := always (Platform.sound fun _ _ => 0)
    { disk := crampedFile } (freshHandle 0 80 59) ⟨0, 80⟩ (freshHead 80 59) 1 (by decide +kernel)
    (by decide +kernel) (by decide)
  exact search_repeats (Platform.durable_sound _) (by decide +kernel) (by decide)
    (by decide +kernel) fuel completed

end Recnodb
