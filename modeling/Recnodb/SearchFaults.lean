import Recnodb.BlockFaults
import Recnodb.ChainLayout

/-!
# The record search under faults

What the record search does on a platform on which any call may fail. Inside the
chain it reads the next header or gives up. At the end of the chain it goes on
with the new block, or with the old one after a failed extension. A search whose
record lies in the chain touches nothing, and so does one in a file whose length
is no multiple of the chunk size.
-/

namespace Recnodb

open Interaction Octets Program

/-! ## Rounds -/

section Rounds

variable {platform : Platform} {file : List UInt8} {handle : Rndh} {bloc : BlockLoc}
variable {htable : RndHeadTable} {recno : UInt32} {search : Search}

/-- What an extension by the search leaves, delivers and passes. -/
structure SearchExtended (platform : Platform) (file : List UInt8) (handle : Rndh)
    (search : Search) (asked : RndBlockDef) (outcome : Search ⊕ (RndError × OffT))
    (after : List UInt8) (past : List Event) (result : RndError × RndBlockDef) : Prop where
  grown : ChainGrown platform file handle search.iblockOffset asked result after
  passed : ∃ code, past = [.requested search.iblockOffset asked, .appendEntered,
    .appendLeft code result.2.newBlock,
    .extended search.iblockOffset result.1 result.2.newBlock]
  onward : result.1 = .success →
    outcome = .inl ⟨headAt after file.length, file.length, search.startRec⟩ ∨
      ∃ code, code ≠ .success ∧ outcome = .inr (code, -1)
  again : result.1 ≠ .success → outcome = .inl search

/-- A header that is read into an empty buffer of its length. -/
theorem patch_headBuffer {offset : Nat} (inside : offset + 32 ≤ file.length) :
    patch (List.replicate sizeofInfoBlock 0) 0 (slice file offset 32) = slice file offset 32 := by
  have whole := @patch_front (List.replicate sizeofInfoBlock 0) [] (slice file offset 32)
    (by rw [slice_length_inside inside, List.length_replicate])
  simpa using whole

theorem extendForRecord_faults :
    UnderFaults platform file (extendForRecord handle (flatrecsFullRecsize htable) recno search)
      fun outcome after past => ∃ result, SearchExtended platform file handle search
        (requestedBlock handle htable recno search) outcome after past result := by
  have settable : (requestedBlock handle htable recno search).Settable :=
    RndBlockDef.Short.settable (.inl rfl)
  refine UnderFaults.note_bind (UnderFaults.bind (blocksExtendChain_faults settable) ?_)
  rintro ⟨rval, linked⟩ after _ ⟨⟨code, rfl⟩, grown⟩
  refine UnderFaults.note_bind ?_
  dsimp only
  by_cases success : rval = .success
  · rw [if_pos success]
    obtain ⟨rfl, -, -⟩ := grown.whole success
    refine UnderFaults.bind (blocksReadBlockHead_faults (Nat.le_refl 32)) ?_
    rintro ⟨code', newblock⟩ after' _ ⟨rfl, rfl, read⟩
    dsimp only at read ⊢
    by_cases complete : code' = .success
    · obtain ⟨inside, rfl⟩ := read complete
      rw [if_neg (not_not_intro complete)]
      refine UnderFaults.ret ⟨_, grown, ⟨code, rfl⟩, fun _ => .inl ?_,
        fun failed => absurd success failed⟩
      rw [patch_headBuffer inside]
      rfl
    · rw [if_pos complete]
      exact UnderFaults.ret ⟨_, grown, ⟨code, rfl⟩, fun _ => .inr ⟨code', complete, rfl⟩,
        fun failed => absurd success failed⟩
  · rw [if_neg success]
    exact UnderFaults.ret ⟨_, grown, ⟨code, rfl⟩, fun yes => absurd yes success, fun _ => rfl⟩

/-- A round inside the chain reads the next header, or gives up. -/
theorem searchRound_inside (beyond : ¬ search.Covers htable recno)
    (more : search.iblock.nextBlock.offset ≠ 0) :
    UnderFaults platform file (searchRound handle bloc htable recno search)
      fun outcome after past => after = file ∧ past = [] ∧
        (outcome = .inr (.systemError, -1) ∨ ∃ next : Nat, search.iblock.nextBlock.offset = next ∧
          outcome = .inl ⟨headAt file next, next, (search.advanced htable).startRec⟩) := by
  rw [searchRound_next beyond more]
  refine UnderFaults.seekRead_bind (fun next inside same => ?_) ?_
  · refine UnderFaults.ret ⟨rfl, rfl, .inr ⟨next, same, ?_⟩⟩
    rw [same]
  · exact UnderFaults.kept_error ⟨rfl, rfl, .inl rfl⟩

/-- A round at the end of the chain in a file that no block can be appended to
only moves the record number on. -/
theorem searchRound_stuck (misaligned : ¬ Aligned handle file)
    (beyond : ¬ search.Covers htable recno) (last : search.iblock.nextBlock.offset = 0) :
    UnderFaults platform file (searchRound handle bloc htable recno search)
      fun outcome after _ => after = file ∧ outcome = .inl (search.advanced htable) := by
  rw [searchRound_end beyond last]
  refine extendForRecord_faults.mono fun outcome after past ⟨result, extended⟩ => ?_
  obtain ⟨failed, same⟩ := extended.grown.refused misaligned
  exact ⟨same, extended.again failed⟩

/-- A loop takes its first round and then goes on or ends. -/
theorem searchFrom_faults {fuel : Nat} {post : RndError × OffT → List UInt8 → List Event → Prop}
    (round : UnderFaults platform file (searchRound handle bloc htable recno search)
      fun outcome after past => match outcome with
        | .inl next => UnderFaults platform after (searchFrom fuel handle bloc htable recno next)
            fun result final later => post result final (past ++ later)
        | .inr result => post result after past) :
    UnderFaults platform file (searchFrom (fuel + 1) handle bloc htable recno search) post := by
  rw [searchFrom, iterate_succ]
  refine UnderFaults.bind round fun outcome after past holds => ?_
  cases outcome with
  | inl next => exact holds
  | inr result =>
    refine UnderFaults.ret ?_
    rw [List.append_nil]
    exact holds

/-- A search whose record lies in the block it stands at answers at once. -/
theorem search_here {fuel : Nat} (covered : search.Covers htable recno) :
    UnderFaults platform file (searchFrom fuel handle bloc htable recno search)
      fun result after past => result = (.success, foundOffset bloc htable recno search) ∧
        after = file ∧ past = [] := by
  cases fuel with
  | zero => exact UnderFaults.stop _
  | succ fuel =>
    apply searchFrom_faults
    rw [searchRound_found covered]
    exact UnderFaults.ret ⟨rfl, rfl, rfl⟩

end Rounds

/-! ## A record inside the chain -/

/-- The offset the search delivers for a place in a block. -/
def slotOffset (file : List UInt8) (bloc : BlockLoc) (htable : RndHeadTable) (target place : Nat) :
    OffT :=
  bloc.offset + (headAt file target).bytesToData.toNat +
    (UInt32.ofNat place * flatrecsFullRecsize htable).toNat

/-- The record lies in a block of the chain, and this is the offset delivered for
its place there. -/
def PlacedAt (file : List UInt8) (bloc : BlockLoc) (htable : RndHeadTable) (blocks : List Nat)
    (recno : UInt32) (offset : OffT) : Prop :=
  ∃ segment place target,
    Segments.locate (capacities file htable blocks) (recno.toNat - 1) = some (segment, place) ∧
      blocks[segment]? = some target ∧ offset = slotOffset file bloc htable target place

/-- A record has one place. -/
theorem PlacedAt.unique {file : List UInt8} {bloc : BlockLoc} {htable : RndHeadTable}
    {blocks : List Nat} {recno : UInt32} {offset offset' : OffT}
    (one : PlacedAt file bloc htable blocks recno offset)
    (other : PlacedAt file bloc htable blocks recno offset') : offset = offset' := by
  obtain ⟨segment, place, target, located, found, rfl⟩ := one
  obtain ⟨segment', place', target', located', found', rfl⟩ := other
  obtain ⟨rfl, rfl⟩ := Prod.mk.inj (Option.some.inj (located.symm.trans located'))
  obtain rfl := Option.some.inj (found.symm.trans found')
  rfl

/-- A record that has a place is within the capacity of the chain. -/
theorem PlacedAt.within {file : List UInt8} {bloc : BlockLoc} {htable : RndHeadTable}
    {blocks : List Nat} {recno : UInt32} {offset : OffT}
    (placed : PlacedAt file bloc htable blocks recno offset) :
    recno.toNat ≤ (capacities file htable blocks).sum := by
  obtain ⟨segment, place, target, located, -, -⟩ := placed
  have below := (Segments.locate_isSome_iff _ _).mp (Option.isSome_of_eq_some located)
  omega

/-- The search stands at a block of the chain, with the number of its first
record. -/
structure StandsIn (file : List UInt8) (htable : RndHeadTable) (recno : UInt32)
    (before : List Nat) (target : Nat) (search : Search) : Prop where
  stands : StandsAt file target (1 + (capacities file htable before).sum) search
  behind : search.Behind recno

section Inside

variable {platform : Platform} {file : List UInt8} {handle : Rndh} {bloc : BlockLoc}
variable {htable : RndHeadTable} {recno : UInt32} {search : Search}
variable {before behind : List Nat} {target : Nat}

theorem StandsIn.covers_iff (here : StandsIn file htable recno before target search) :
    search.Covers htable recno ↔
      recno.toNat - (1 + (capacities file htable before).sum) < capacityAt file htable target :=
  here.stands.covers_iff here.behind

/-- The first record number of the block is not past the record. -/
theorem StandsIn.number (here : StandsIn file htable recno before target search) :
    1 + (capacities file htable before).sum ≤ recno.toNat :=
  here.stands.start ▸ here.behind

/-- Where the search finds the record, the record has its place. -/
theorem StandsIn.placed (here : StandsIn file htable recno before target search)
    (covered : search.Covers htable recno) :
    PlacedAt file bloc htable (before ++ target :: behind) recno
      (foundOffset bloc htable recno search) := by
  have number := here.number
  have below := here.covers_iff.mp covered
  have index : (recno - search.startRec).toNat =
      recno.toNat - (1 + (capacities file htable before).sum) := by
    rw [UInt32.toNat_sub_of_le _ _ here.behind, here.stands.start]
  refine ⟨before.length, recno.toNat - (1 + (capacities file htable before).sum), target, ?_, ?_, ?_⟩
  · rw [Segments.locate_eq_some_iff]
    have length : before.length < (capacities file htable (before ++ target :: behind)).length := by
      simp
    refine ⟨length, ?_, ?_⟩
    · simpa [capacities] using below
    · have front : (capacities file htable (before ++ target :: behind)).take before.length =
          capacities file htable before := by
        simp [capacities]
      rw [front]
      omega
  · simp
  · rw [foundOffset, slotOffset, here.stands.head.data, ← index, UInt32.ofNat_toNat]

/-- Past a block, the search stands at the next one. -/
theorem StandsIn.next {next : Nat} (here : StandsIn file htable recno before target search)
    (beyond : ¬ search.Covers htable recno) :
    StandsIn file htable recno (before ++ [target]) next
      ⟨headAt file next, next, (search.advanced htable).startRec⟩ := by
  constructor
  · refine ⟨InfoBlock.Alike.refl _, rfl, ?_⟩
    rw [advanced_start here.behind beyond, here.stands.start, here.stands.capacity]
    simp [capacities, Nat.add_assoc]
  · exact advanced_behind here.behind beyond

/-- A record within the capacity is not past the last block. -/
theorem StandsIn.covers_last (here : StandsIn file htable recno before target search)
    (within : recno.toNat ≤ (capacities file htable (before ++ [target])).sum) :
    search.Covers htable recno := by
  have number := here.number
  rw [here.covers_iff]
  simp only [capacities, List.map_append, List.map_cons, List.map_nil, List.sum_append,
    List.sum_cons, List.sum_nil] at within number ⊢
  omega

/-- A search for a record within the capacity of the chain changes nothing, and
delivers the offset of its place if it succeeds. -/
theorem search_within (chain : IsChain file (before ++ target :: behind))
    (here : StandsIn file htable recno before target search)
    (within : recno.toNat ≤ (capacities file htable (before ++ target :: behind)).sum)
    (fuel : Nat) :
    UnderFaults platform file (searchFrom fuel handle bloc htable recno search)
      fun result after past => after = file ∧ past = [] ∧ (result.1 = .success →
        PlacedAt file bloc htable (before ++ target :: behind) recno result.2) := by
  induction fuel generalizing before target behind search with
  | zero => exact UnderFaults.stop _
  | succ fuel ih =>
    apply searchFrom_faults
    by_cases covered : search.Covers htable recno
    · rw [searchRound_found covered]
      exact UnderFaults.ret ⟨rfl, rfl, fun _ => here.placed covered⟩
    · cases behind with
      | nil => exact absurd (here.covers_last within) covered
      | cons next behind =>
        obtain ⟨nonzero, -, link⟩ := chain.at_inner
        have more : search.iblock.nextBlock.offset = next := here.stands.head.next.trans link
        have some : search.iblock.nextBlock.offset ≠ 0 := by
          rw [more]
          exact_mod_cast nonzero
        refine (searchRound_inside covered some).mono ?_
        rintro outcome after past ⟨rfl, rfl, rfl | ⟨next', same, rfl⟩⟩
        · exact ⟨rfl, rfl, RndError.noConfusion⟩
        · obtain rfl : next = next' := Int.natCast_inj.mp (more.symm.trans same)
          have split : before ++ target :: next :: behind =
              before ++ [target] ++ next :: behind := by simp
          rw [split] at chain within ⊢
          exact ih chain (here.next covered) within

end Inside

/-! ## A file that no block can be appended to -/

/-- The search that stands at a block and moves its record number on from round to
round finds the record at this offset. -/
def WrapsTo (bloc : BlockLoc) (htable : RndHeadTable) (recno : UInt32) (search : Search)
    (offset : OffT) : Prop :=
  ∃ rounds, (∀ less < rounds, ¬ ((Search.advanced htable)^[less] search).Covers htable recno) ∧
    ((Search.advanced htable)^[rounds] search).Covers htable recno ∧
    offset = foundOffset bloc htable recno ((Search.advanced htable)^[rounds] search)

section Stuck

variable {platform : Platform} {file : List UInt8} {handle : Rndh} {bloc : BlockLoc}
variable {htable : RndHeadTable} {recno : UInt32} {search : Search} {offset offset' : OffT}

/-- It finds the record at one offset only. -/
theorem WrapsTo.unique (one : WrapsTo bloc htable recno search offset)
    (other : WrapsTo bloc htable recno search offset') : offset = offset' := by
  obtain ⟨rounds, before, covered, rfl⟩ := one
  obtain ⟨rounds', before', covered', rfl⟩ := other
  rcases Nat.lt_trichotomy rounds rounds' with less | same | greater
  · exact absurd covered (before' _ less)
  · rw [same]
  · exact absurd covered' (before _ greater)

theorem WrapsTo.here (covered : search.Covers htable recno) :
    WrapsTo bloc htable recno search (foundOffset bloc htable recno search) :=
  ⟨0, fun _ none => absurd none (Nat.not_lt_zero _), covered, rfl⟩

theorem WrapsTo.advanced (beyond : ¬ search.Covers htable recno)
    (later : WrapsTo bloc htable recno (search.advanced htable) offset) :
    WrapsTo bloc htable recno search offset := by
  obtain ⟨rounds, before, covered, rfl⟩ := later
  refine ⟨rounds + 1, ?_, covered, rfl⟩
  intro less below
  cases less with
  | zero => exact beyond
  | succ less => exact before less (Nat.lt_of_succ_lt_succ below)

/-- Only the record number moves on. -/
theorem advanced_iterate (rounds : Nat) :
    ((Search.advanced htable)^[rounds] search).iblock = search.iblock ∧
      ((Search.advanced htable)^[rounds] search).startRec = search.startRec +
        UInt32.ofNat rounds * flatrecsGetRecordCapacity htable search.iblock := by
  induction rounds generalizing search with
  | zero => simp
  | succ rounds ih =>
    obtain ⟨head, start⟩ := @ih (search.advanced htable)
    rw [Function.iterate_succ_apply]
    refine ⟨head, start.trans ?_⟩
    rw [UInt32.ofNat_add, UInt32.add_mul, UInt32.add_comm (UInt32.ofNat rounds * _),
      ← UInt32.add_assoc]
    simp [Search.advanced]

/-- A copy of the same block with the same record number finds it there as well. -/
theorem WrapsTo.sameBlock {search' : Search} (same : search.iblock.SameBlock search'.iblock)
    (start : search.startRec = search'.startRec)
    (wraps : WrapsTo bloc htable recno search offset) :
    WrapsTo bloc htable recno search' offset := by
  have capacity := @capacity_sameBlock htable _ _ same
  have covers (rounds : Nat) : ((Search.advanced htable)^[rounds] search).Covers htable recno ↔
      ((Search.advanced htable)^[rounds] search').Covers htable recno := by
    obtain ⟨head, number⟩ := @advanced_iterate htable search rounds
    obtain ⟨head', number'⟩ := @advanced_iterate htable search' rounds
    rw [Search.Covers, Search.Covers, head, head', number, number', start, capacity]
  obtain ⟨rounds, before, covered, rfl⟩ := wraps
  refine ⟨rounds, fun less below => ?_, (covers rounds).mp covered, ?_⟩
  · exact mt (covers less).mpr (before less below)
  · obtain ⟨head, number⟩ := @advanced_iterate htable search rounds
    obtain ⟨head', number'⟩ := @advanced_iterate htable search' rounds
    rw [foundOffset, foundOffset, head, head', number, number', start, capacity, same.data]

/-- A search at the end of the chain in a file that no block can be appended to
changes nothing. -/
theorem search_stuck (misaligned : ¬ Aligned handle file)
    (last : search.iblock.nextBlock.offset = 0) (fuel : Nat) :
    UnderFaults platform file (searchFrom fuel handle bloc htable recno search)
      fun result after _ => after = file ∧
        (result.1 = .success → WrapsTo bloc htable recno search result.2) := by
  induction fuel generalizing search with
  | zero => exact UnderFaults.stop _
  | succ fuel ih =>
    apply searchFrom_faults
    by_cases covered : search.Covers htable recno
    · rw [searchRound_found covered]
      exact UnderFaults.ret ⟨rfl, fun _ => WrapsTo.here covered⟩
    · refine (searchRound_stuck misaligned covered last).mono ?_
      rintro outcome after past ⟨rfl, rfl⟩
      have stillLast : (search.advanced htable).iblock.nextBlock.offset = 0 := last
      refine (ih stillLast).mono ?_
      rintro result final later ⟨same, wraps⟩
      exact ⟨same, fun success => (wraps success).advanced covered⟩

end Stuck

end Recnodb
