import Recnodb.Creation
import Recnodb.SearchRounds

/-!
# Failed extensions

What becomes of a failed call of `blocks_extend_chain` inside the record search.
The search goes on with the same block, whose link is empty, and with a record
number that was already advanced. From there it either finds the record in a
block that does not contain it or extends again; it never reports the failure.
-/

namespace Recnodb

open Interaction Program

/-- Some block was appended in this part of a run. -/
def Appends (past : List Event) : Prop := ∃ newBlock, Event.appendLeft .success newBlock ∈ past

/-- Every failed extension of the search is its last act: with some amount of
fuel the search returns the same code and the offset `-1`, and no block is
appended after it. -/
def ReportsFailure {σ : Type} (handler : Handler Call Answer σ) (state : σ) (handle : Rndh)
    (bloc : BlockLoc) (htable : RndHeadTable) (recno : UInt32) : Prop :=
  ∀ fuel past later chainEnd rval newBlock, rval ≠ .success →
    events (log handler (flatrecsMakeOffsetToRecno fuel handle bloc htable recno) state) =
      past ++ .extended chainEnd rval newBlock :: later →
    (∃ more, (run handler (flatrecsMakeOffsetToRecno (fuel + more) handle bloc htable recno)
      state).1 = .ok (rval, -1)) ∧ ¬ Appends later

/-- No extension of the search fails. -/
def NeverFails {σ : Type} (handler : Handler Call Answer σ) (state : σ) (handle : Rndh)
    (bloc : BlockLoc) (htable : RndHeadTable) (recno : UInt32) : Prop :=
  ∀ fuel chainEnd rval newBlock, .extended chainEnd rval newBlock ∈
    events (log handler (flatrecsMakeOffsetToRecno fuel handle bloc htable recno) state) →
    rval = .success

/-- An element of joined lists lies in the first or in the second. -/
theorem split_front {α : Type} {front rest past later : List α} {one : α}
    (same : front ++ rest = past ++ one :: later) :
    (∃ between, front = past ++ one :: between ∧ later = between ++ rest) ∨
      ∃ past', rest = past' ++ one :: later := by
  rcases List.append_eq_append_iff.mp same with ⟨between, -, split⟩ | ⟨between, left, right⟩
  · exact .inr ⟨between, split⟩
  · cases between with
    | nil => exact .inr ⟨[], by simpa using right.symm⟩
    | cons head tail =>
      obtain ⟨rfl, rfl⟩ := List.cons.inj right
      exact .inl ⟨tail, left, rfl⟩

/-- Among the events of one extension, its result is the last one. -/
theorem extended_last {asked told : OffT} {bdef : RndBlockDef} {appended rval code : RndError}
    {newBlock made found : BlockLoc} {past between : List Event}
    (passed : [.requested asked bdef, .appendEntered, .appendLeft appended newBlock,
      .extended asked code made] = past ++ .extended told rval found :: between) :
    code = rval ∧ between = [] := by
  rcases past with _ | ⟨_, _ | ⟨_, _ | ⟨_, _ | ⟨_, past⟩⟩⟩⟩ <;> simp at passed
  exact ⟨passed.2.2.2.1.2.1, passed.2.2.2.2⟩

section Search

variable {σ : Type} (handler : Handler Call Answer σ)
variable {handle : Rndh} {bloc : BlockLoc} {htable : RndHeadTable} {recno : UInt32}

/-- A completed search splits into its first round and the search from there. -/
theorem search_cases {fuel : Nat} {search : Search} {result : RndError × OffT} {state final : σ}
    (completed : run handler
      (iterate .fuel (searchRound handle bloc htable recno) fuel search) state =
        (.ok result, final)) :
    ∃ less outcome middle, fuel = less + 1 ∧
      run handler (searchRound handle bloc htable recno search) state = (.ok outcome, middle) ∧
      match outcome with
        | .inl next =>
          run handler (iterate .fuel (searchRound handle bloc htable recno) less next) middle =
            (.ok result, final) ∧
          events (log handler
            (iterate .fuel (searchRound handle bloc htable recno) fuel search) state) =
              events (log handler (searchRound handle bloc htable recno search) state) ++
                events (log handler
                  (iterate .fuel (searchRound handle bloc htable recno) less next) middle)
        | .inr delivered => delivered = result ∧
          events (log handler
            (iterate .fuel (searchRound handle bloc htable recno) fuel search) state) =
              events (log handler (searchRound handle bloc htable recno search) state) := by
  obtain ⟨less, outcome, middle, rfl, round, rest⟩ := run_iterate_inv handler completed
  refine ⟨less, outcome, middle, rfl, round, ?_⟩
  rw [iterate_succ, log_bind_ok handler round, events_append]
  cases outcome with
  | inl next => exact ⟨rest, rfl⟩
  | inr delivered => exact ⟨rest.1, by simp [log]⟩

/-- From a block without a link, a search that returns has succeeded or has
appended a block. -/
theorem search_from_end {fuel : Nat} {search : Search} (last : search.iblock.nextBlock.offset = 0)
    {code : RndError} {offset : OffT} {state final : σ}
    (completed : run handler
      (iterate .fuel (searchRound handle bloc htable recno) fuel search) state =
        (.ok (code, offset), final)) :
    code = .success ∨ Appends (events (log handler
      (iterate .fuel (searchRound handle bloc htable recno) fuel search) state)) := by
  induction fuel generalizing search state with
  | zero => simp at completed
  | succ fuel ih =>
    obtain ⟨less, outcome, middle, same, round, rest⟩ := search_cases handler completed
    obtain rfl : fuel = less := Nat.succ.inj same
    by_cases covered : search.Covers htable recno
    · rw [searchRound_found covered] at round
      obtain ⟨rfl, -⟩ := run_ret_inv handler round
      exact .inl (congrArg Prod.fst rest.1).symm
    · rw [searchRound_end covered last] at round rest
      obtain ⟨appended, rval, newBlock, worked, passed, outcomes⟩ :=
        extendForRecord_cases handler round
      rw [passed] at rest
      rcases outcomes with ⟨failed, rfl⟩ | ⟨success, block, rfl⟩ | ⟨success, reason, bad, rfl⟩
      · obtain ⟨remaining, split⟩ := rest
        have stillLast : (search.advanced htable).iblock.nextBlock.offset = 0 := last
        refine (ih stillLast remaining).imp_right fun ⟨block, among⟩ => ⟨block, ?_⟩
        rw [split]
        exact List.mem_append_right _ among
      · refine .inr ⟨newBlock, ?_⟩
        rw [rest.2, worked success]
        simp
      · refine .inr ⟨newBlock, ?_⟩
        rw [rest.2, worked success]
        simp

/-- A search that passed a failed extension and returned has answered success or
has appended a block after it. -/
theorem search_after_failure {fuel : Nat} {search : Search} {code : RndError} {offset : OffT}
    {state final : σ} {past later : List Event} {chainEnd : OffT} {rval : RndError}
    {newBlock : BlockLoc} (failed : rval ≠ .success)
    (completed : run handler
      (iterate .fuel (searchRound handle bloc htable recno) fuel search) state =
        (.ok (code, offset), final))
    (passed : events (log handler
      (iterate .fuel (searchRound handle bloc htable recno) fuel search) state) =
        past ++ .extended chainEnd rval newBlock :: later) :
    code = .success ∨ Appends later := by
  induction fuel generalizing search state past with
  | zero => simp at completed
  | succ fuel ih =>
    obtain ⟨less, outcome, middle, same, round, rest⟩ := search_cases handler completed
    obtain rfl : fuel = less := Nat.succ.inj same
    -- whatever the round passed, the failure may lie in the rounds behind it
    have behind (elsewhere : ∀ between, events
        (log handler (searchRound handle bloc htable recno search) state) =
          past ++ .extended chainEnd rval newBlock :: between →
        ∃ next, outcome = .inl next ∧ between = [] ∧ next.iblock.nextBlock.offset = 0) :
        code = .success ∨ Appends later := by
      cases outcome with
      | inl next =>
        rw [rest.2] at passed
        rcases split_front passed with ⟨between, here, rfl⟩ | ⟨past', there⟩
        · obtain ⟨_, ⟨⟩, rfl, last⟩ := elsewhere between here
          exact search_from_end handler last rest.1
        · exact ih rest.1 there
      | inr delivered =>
        obtain ⟨_, ⟨⟩, -⟩ := elsewhere later (rest.2.symm.trans passed)
    by_cases within : search.Covers htable recno ∨ search.iblock.nextBlock.offset ≠ 0
    · refine behind fun between here => ?_
      rw [events_plain (plain_searchRound within)] at here
      simp at here
    · obtain ⟨beyond, last⟩ : ¬ search.Covers htable recno ∧
          search.iblock.nextBlock.offset = 0 := by simpa using within
      refine behind fun between here => ?_
      rw [searchRound_end beyond last] at round here
      obtain ⟨appended, ended, found, -, passedHere, outcomes⟩ :=
        extendForRecord_cases handler round
      rw [passedHere] at here
      obtain ⟨⟨⟩, rfl⟩ := extended_last here
      rcases outcomes with ⟨-, rfl⟩ | ⟨success, -⟩ | ⟨success, -⟩
      · exact ⟨_, rfl, rfl, last⟩
      · exact absurd success failed
      · exact absurd success failed

/-- A failed extension is never reported: the failure is reported exactly by
those searches in which none happens. -/
theorem reportsFailure_iff_neverFails (state : σ) :
    ReportsFailure handler state handle bloc htable recno ↔
      NeverFails handler state handle bloc htable recno := by
  constructor
  · intro reports fuel chainEnd rval newBlock among
    by_contra failed
    obtain ⟨past, later, passed⟩ := List.append_of_mem among
    obtain ⟨⟨more, returned⟩, -⟩ := reports fuel past later chainEnd rval newBlock failed passed
    -- with the fuel that lets it return, the same failure is followed by an append
    obtain ⟨beyond, longer⟩ :
        log handler (flatrecsMakeOffsetToRecno fuel handle bloc htable recno) state <+:
          log handler (flatrecsMakeOffsetToRecno (fuel + more) handle bloc htable recno) state :=
      log_iterate_prefix handler fuel more _ state
    have passedMore : events (log handler
        (flatrecsMakeOffsetToRecno (fuel + more) handle bloc htable recno) state) =
          past ++ .extended chainEnd rval newBlock :: (later ++ events beyond) := by
      rw [← longer, events_append, passed, List.append_assoc, List.cons_append]
    have quiet := (reports (fuel + more) past _ chainEnd rval newBlock failed passedMore).2
    have completed : run handler
        (flatrecsMakeOffsetToRecno (fuel + more) handle bloc htable recno) state =
          (.ok (rval, -1), (run handler
            (flatrecsMakeOffsetToRecno (fuel + more) handle bloc htable recno) state).2) :=
      Prod.ext returned rfl
    rcases search_after_failure handler failed completed passedMore with success | appends
    · exact failed success
    · exact quiet appends
  · intro never fuel past later chainEnd rval newBlock failed passed
    exact absurd (never fuel chainEnd rval newBlock (by simp [passed])) failed

end Search

/-! ## A full disk -/

/-- `ENOSPC`. -/
def enospc : Int := 28

/-- A platform on which the seventh call fails because the disk is full. -/
def fullDisk : Platform where
  faults := fun clock => if clock = 6 then some { errno := enospc } else none
  memory := fun _ _ => 0

/-- The root of the new table holds two records. On a full disk, the third is
answered with the address of the first. -/
theorem full_disk_not_reported :
    (run (posix fullDisk) (flatrecsMakeOffsetToRecno 2 (freshHandle 0 80 3) ⟨0, 64⟩
      (freshTable 80 3) 3) (freshWorld 80 3)).1 = .ok (.success, 72) ∧
    ¬ ReportsFailure (posix fullDisk) (freshWorld 80 3) (freshHandle 0 80 3) ⟨0, 64⟩
      (freshTable 80 3) 3 := by
  have answer : (run (posix fullDisk) (flatrecsMakeOffsetToRecno 2 (freshHandle 0 80 3) ⟨0, 64⟩
      (freshTable 80 3) 3) (freshWorld 80 3)).1 = .ok (.success, 72) := by decide +kernel
  refine ⟨answer, fun reports => ?_⟩
  have passed : events (log (posix fullDisk) (flatrecsMakeOffsetToRecno 2 (freshHandle 0 80 3)
      ⟨0, 64⟩ (freshTable 80 3) 3) (freshWorld 80 3)) =
      [.requested 0 { blockType := .data, blockSize := 0 }, .appendEntered,
        .appendLeft .systemError ⟨0, 0⟩] ++ .extended 0 .systemError ⟨0, 0⟩ :: [] := by
    decide +kernel
  obtain ⟨⟨more, returned⟩, -⟩ := reports 2 _ _ _ _ _ (by decide) passed
  -- more fuel does not change a result
  rw [search_more _ answer more] at returned
  exact absurd returned (by decide)

end Recnodb
