import Recnodb.ChainFaults
import Recnodb.Flatrecs

/-!
# A locked area under faults

A call of `rnd_lock_area` with data that answers success has read the area, run its
callback on what it read, and written the buffer back whole if the callback asked
for it. Every failed operation around the callback shows in the answer, except
those that restore the stream position. The callback of the next-offset function
searches the record behind the last one and hands its offset on.
-/

namespace Recnodb

open Interaction Octets Program

variable {platform : Platform} {file : List UInt8} {handle : Rndh} {root : Nat}

/-- What a locked area of the size of a table header leaves when it answers success. -/
theorem rndLockArea_success {callback : LockCallback} {post : List UInt8 → List Event → Prop}
    (called : root + 64 ≤ file.length →
      UnderFaults platform file (callback handle ⟨root, sizeofHeadTable⟩ (some (slice file root 64)))
        fun result middle past => (result.1 = false → post middle past) ∧
          (result.1 = true → post (patch middle root result.2) past)) :
    UnderFaults platform file (rndLockArea handle ⟨root, sizeofHeadTable⟩ true callback)
      fun rval after past => rval = .success → post after past := by
  -- a code that is not success promises nothing
  have failing {rval : RndError} (bad : rval ≠ .success) (after : List UInt8) :
      UnderFaults platform after (pure rval : Prog RndError)
        fun code final past => code = .success → post final past :=
    UnderFaults.ret fun success => absurd success bad
  have locked : UnderFaults platform file (lockedData handle ⟨root, sizeofHeadTable⟩ callback)
      fun rval after past => rval = .success → post after past := by
    refine UnderFaults.of_positions fun position => ?_
    refine FromPosition.ftell_saved fun saved => ?_
    have restored {rval : RndError} {after : List UInt8} {past : List Event}
        (holds : rval = .success → post after past) : UnderFaults platform after
          (fseek saved .seekSet >>= fun _ => pure rval : Prog RndError)
          fun code final later => code = .success → post final (past ++ later) := by
      refine UnderFaults.fseek_bind fun _ => UnderFaults.ret ?_
      rw [List.append_nil]
      exact holds
    refine FromPosition.fseek_bind (fun target same _ => ?_)
      (FromPosition.of_file (UnderFaults.keepErrno_bind (failing RndError.noConfusion _)))
    obtain rfl : root = target := Int.natCast_inj.mp same
    dsimp only
    rw [if_pos rfl]
    refine FromPosition.fread_bind (fun inside _ => FromPosition.of_file ?_)
      (@restored _ _ [] RndError.noConfusion)
    refine UnderFaults.bind (called inside) ?_
    rintro ⟨changed, buffer⟩ middle past ⟨kept, written⟩
    cases changed with
    | false => exact restored fun _ => kept rfl
    | true =>
      refine UnderFaults.seekWrite_bind (fun start here _ => ?_) (fun start count _ => ?_) ?_
      · obtain rfl : root = start := Int.natCast_inj.mp here
        exact restored fun _ => written rfl
      · exact restored RndError.noConfusion
      · exact restored RndError.noConfusion
  refine UnderFaults.primeHandle_bind (UnderFaults.fcntl_bind fun reply => ?_)
  cases reply with
  | some errno =>
    dsimp only
    split
    · exact failing RndError.noConfusion _
    · exact UnderFaults.keepErrno_bind (failing RndError.noConfusion _)
  | none =>
    refine UnderFaults.bind locked fun rval after past holds => ?_
    refine UnderFaults.fcntl_bind fun reply => ?_
    cases reply with
    | some errno =>
      exact UnderFaults.kept_error RndError.noConfusion
    | none =>
      refine UnderFaults.ret ?_
      rw [List.append_nil]
      exact holds

/-- A completed run is one from some state with this file. -/
theorem UnderFaults.ran {α : Type} (program : Prog α) :
    UnderFaults platform file program fun value after _ => ∃ before final, before.file = file ∧
      final.file = after ∧ run (posix platform) program before = (.ok value, final) ∧
      Lossless platform (log (posix platform) program before) :=
  fun before same _ final completed lossless => ⟨before, final, same, rfl, completed, lossless⟩

/-- The events of a search, under faults. -/
theorem UnderFaults.ofSearch {α : Type} {program : Prog α} (only : program.Only Call.OfSearch) :
    UnderFaults platform file program fun _ _ past => ∀ event ∈ past, event.OfSearch :=
  fun world _ _ _ _ _ => events_ofSearch _ only world

/-- The copy of a table header that a locked area reads. -/
def htableAt (file : List UInt8) (root : Nat) : RndHeadTable :=
    RndHeadTable.ofBytes (slice file root 64)

/-- The copy starts with the header of the root. -/
theorem htableAt_bhead (file : List UInt8) (root : Nat) :
    (htableAt file root).bhead = headAt file root := by
  rw [htableAt, RndHeadTable.ofBytes, slice_slice _ _ _ _ _ (by omega)]
  rfl

/-- The header with another last record number. -/
def RndHeadTable.numbered (htable : RndHeadTable) (lastRecno : UInt32) : RndHeadTable :=
  { htable with thead := { htable.thead with lastRecno := lastRecno } }

/-- A user callback that only takes the number. -/
def takeNumber : FlatrecsUseNewRecord := fun _ htable _ =>
  pure (true, htable.numbered (htable.thead.lastRecno + 1))

/-- The record number that the next-offset function computes from it. -/
def nextRecno (file : List UInt8) (root : Nat) : UInt32 := (htableAt file root).thead.lastRecno + 1

/-- A call for the next offset that answers success: the search failed and nothing
was written back, or the user callback ran and was obeyed. -/
theorem getNextOffset_success {fuel : Nat} {user : FlatrecsUseNewRecord}
    {post : List UInt8 → List Event → Prop}
    (searched : root + 64 ≤ file.length → UnderFaults platform file
      (flatrecsMakeOffsetToRecno fuel handle ⟨root, sizeofHeadTable⟩ (htableAt file root)
        (nextRecno file root)) fun result middle past =>
          (result.1 ≠ .success → post middle (.numbered (nextRecno file root) :: past)) ∧
          (result.1 = .success →
            UnderFaults platform middle (user handle (htableAt file root) result.2)
            fun answer final later =>
              post (if answer.1 then patch final root answer.2.toBytes else final)
                (.numbered (nextRecno file root) :: past ++
                  .handed (nextRecno file root) result.2 :: later ++ [.answered answer.1]))) :
    UnderFaults platform file (flatrecsGetNextOffset fuel handle root user)
      fun rval after past => rval = .success → post after past := by
  refine UnderFaults.assert_bind fun _ => UnderFaults.primeHandle_bind
    (rndLockArea_success fun inside => UnderFaults.note_bind (UnderFaults.bind (searched inside) ?_))
  rintro ⟨code, offset⟩ middle past ⟨failed, found⟩
  dsimp only at failed found ⊢
  by_cases success : code = .success
  · rw [if_neg (not_not_intro success)]
    refine UnderFaults.note_bind (UnderFaults.bind (found success) ?_)
    rintro ⟨changed, htable⟩ final later holds
    refine UnderFaults.note_bind (UnderFaults.ret ?_)
    cases changed with
    | false => exact ⟨fun _ => by simpa [nextRecno, htableAt] using holds, Bool.noConfusion⟩
    | true => exact ⟨Bool.noConfusion, fun _ => by simpa [nextRecno, htableAt] using holds⟩
  · rw [if_pos success]
    exact UnderFaults.ret
      ⟨fun _ => by simpa [nextRecno, htableAt] using failed success, Bool.noConfusion⟩

end Recnodb
