import Recnodb.LockDiscipline

/-!
# Answers of locked areas

What the result of `rnd_lock_area` tells. A run does everything it was asked for when
the lock is granted, the area is read, the callback returns, the write-back it asks for
is on the disk and the release is granted; what each of these leaves is determined by the
calls it makes. With data the result is success exactly where each of these calls succeeds,
and tells what happened unless the seek that sends the stream back hides a loss. Without
data the result starts as `RND_FAIL` and nothing replaces it.
-/

namespace Recnodb

open Interaction Octets Program

section Answers

variable (platform : Platform) (handle : Rndh) (bhandle : BlockLoc) (callback : LockCallback)

/-- The write-back a callback asks for is taken, if it asks for one. -/
def WrittenBack (changed : Bool) (buffer : List UInt8) (exit written : World) : Prop :=
  if changed = true then WrittenOver platform bhandle buffer exit written else written = exit

/-- Behind a callback that was shown the area, its buffer is written back and the stream sent
back; behind another one, nothing is done to the file. -/
def PutBack (area : Option (OffT × List UInt8)) (changed : Bool) (buffer : List UInt8)
    (exit left : World) : Prop :=
  match area with
  | none => left = exit
  | some (savedOffset, _) => ∃ written restored,
    WrittenBack platform bhandle changed buffer exit written ∧
      posix platform (.fseek savedOffset .seekSet) written = (restored, left)

/-- The lock is obtained and the area read if that was requested, the callback returns, the stream
takes the write-back it asks for, and the lock is released. -/
def Performed (retrieveData : Bool) (world : World) (area : Option (OffT × List UInt8))
    (changed : Bool) (buffer : List UInt8) (left after : World) : Prop :=
  ∃ entry exit,
    run (posix platform) (approach bhandle retrieveData) world = (.ok (.entered area), entry) ∧
      run (posix platform) (callback handle bhandle (area.map Prod.snd)) entry =
        (.ok (changed, buffer), exit) ∧
      PutBack platform bhandle area changed buffer exit left ∧
      posix platform (.fcntl .unlock bhandle.offset bhandle.size) left = (none, after)

/-- All this is done, and the write-back has reached the disk where the callback was shown the
area and asked for it. -/
def AllHappened (retrieveData : Bool) (world : World) : Prop :=
  ∃ area changed buffer left after,
    Performed platform handle bhandle callback retrieveData world area changed buffer left after ∧
      (retrieveData = true → changed = true →
        slice left.disk bhandle.offset.toNat buffer.length = buffer)

/-- The callback returns, whatever it is given. -/
def Returning : Prop :=
  ∀ buffer entry, ∃ answer,
    (run (posix platform) (callback handle bhandle buffer) entry).1 = .ok answer

/-- The result is success if and only if everything happened. If the callback returns, so
does the function, so that in every other case the result is another code. -/
structure AnswerTells (retrieveData : Bool) (world : World) : Prop where
  returns : Returning platform handle bhandle callback → ∃ rval,
    (run (posix platform) (rndLockArea handle bhandle retrieveData callback) world).1 = .ok rval
  tells : ∀ rval after,
    run (posix platform) (rndLockArea handle bhandle retrieveData callback) world =
        (.ok rval, after) →
      (rval = .success ↔ AllHappened platform handle bhandle callback retrieveData world)

/-- Without data, the lock is granted, the callback returns, and the release is granted. The
platform refuses a request for a range that starts below zero, and one on which a failure
is injected. -/
def GrantedThrough (world : World) : Prop :=
  0 ≤ bhandle.offset ∧ platform.faults world.clock = none ∧ ∃ answer exit,
    run (posix platform) (callback handle bhandle none) { world with sysErrno := 0 }.tick =
        (.ok answer, exit) ∧
      platform.faults exit.clock = none

end Answers

section Steps

variable {platform : Platform} {handle : Rndh} {bhandle : BlockLoc} {callback : LockCallback}
variable {world : World}

/-! ## Parts that always return -/

theorem release_returns {rval : RndError} :
    ∃ code, (run (posix platform) (release bhandle rval) world).1 = .ok code := by
  obtain ⟨code, returned, -⟩ := @release_ends platform bhandle world rval
  exact ⟨code, returned⟩

/-- What returns and is followed by what returns, returns. -/
theorem returns_bind {α β : Type} {program : Prog α} {rest : α → Prog β}
    (first : ∃ value, (run (posix platform) program world).1 = .ok value)
    (second : ∀ value after, ∃ result, (run (posix platform) (rest value) after).1 = .ok result) :
    ∃ result, (run (posix platform) (program >>= rest) world).1 = .ok result := by
  obtain ⟨value, completed⟩ := first
  rw [run_bind_ok _ (run_eq_of_value (posix platform) completed)]
  exact second _ _

theorem restore_returns {savedOffset : OffT} {rval : RndError} :
    ∃ code, (run (posix platform) (restore bhandle savedOffset rval) world).1 = .ok code :=
  returns_bind ⟨_, rfl⟩ fun _ _ => release_returns

theorem writeBack_returns {changed : Bool} {buffer : List UInt8} :
    ∃ rval, (run (posix platform) (writeBack bhandle changed buffer) world).1 = .ok rval := by
  unfold writeBack
  split
  · refine returns_bind (returns_bind ⟨_, rfl⟩ fun found after => ?_) fun written after => ?_
    · cases found <;> exact ⟨_, rfl⟩
    · cases written <;> exact ⟨_, rfl⟩
  · exact ⟨_, rfl⟩

theorem approach_returns {retrieveData : Bool} :
    ∃ reached, (run (posix platform) (approach bhandle retrieveData) world).1 = .ok reached := by
  refine returns_bind ⟨_, rfl⟩ fun _ primed => returns_bind ⟨_, rfl⟩ fun locked after => ?_
  cases locked with
  | some errno => exact ⟨_, rfl⟩
  | none =>
    cases retrieveData with
    | false => exact ⟨_, rfl⟩
    | true =>
      refine returns_bind ⟨_, rfl⟩ fun savedOffset told => returns_bind ⟨_, rfl⟩ fun found sought =>
        ?_
      cases found with
      | false => exact ⟨_, rfl⟩
      | true =>
        refine returns_bind ⟨_, rfl⟩ fun read between => ?_
        cases read <;> exact ⟨_, rfl⟩

/-- A refused lock is reported by a code of its own. -/
theorem depart_refused {errno : Int} : ∃ code,
    (run (posix platform) (depart handle bhandle callback (.refused errno)) world).1 = .ok code ∧
      code ≠ .success := by
  rw [depart]
  by_cases busy : errno = eagain ∨ errno = eacces
  · rw [if_pos busy]
    exact ⟨_, rfl, RndError.noConfusion⟩
  · rw [if_neg busy]
    exact ⟨_, rfl, RndError.noConfusion⟩

/-- If the callback returns, the function does. -/
theorem depart_returns {reached : Approach}
    (returning : ∀ area, reached = .entered area → ∃ answer,
      (run (posix platform) (callback handle bhandle (area.map Prod.snd)) world).1 = .ok answer) :
    ∃ rval, (run (posix platform) (depart handle bhandle callback reached) world).1 = .ok rval := by
  cases reached with
  | refused errno =>
    obtain ⟨code, returned, -⟩ := @depart_refused platform handle bhandle callback world errno
    exact ⟨code, returned⟩
  | unsought => exact returns_bind ⟨_, rfl⟩ fun _ _ => release_returns
  | unread savedOffset => exact restore_returns
  | entered area =>
    cases area with
    | none => exact returns_bind (returning none rfl) fun _ _ => release_returns
    | some pair =>
      refine returns_bind (returning (some pair) rfl) fun answer exit => ?_
      exact returns_bind writeBack_returns fun rval written => restore_returns

theorem rndLockArea_returns {retrieveData : Bool}
    (returning : Returning platform handle bhandle callback) : ∃ rval,
      (run (posix platform) (rndLockArea handle bhandle retrieveData callback) world).1 =
        .ok rval := by
  rw [rndLockArea_parts]
  exact returns_bind approach_returns fun reached entry => depart_returns fun area _ => returning _ _

/-! ## Success behind the callback -/

/-- A write-back answers success exactly where the stream takes it. -/
theorem run_writeBack_iff {changed : Bool} {buffer : List UInt8} {exit written : World} :
    run (posix platform) (writeBack bhandle changed buffer) exit = (.ok .success, written) ↔
      WrittenBack platform bhandle changed buffer exit written := by
  unfold WrittenBack
  cases changed with
  | false =>
    rw [if_neg Bool.false_ne_true]
    exact ⟨fun same => (Prod.mk.inj same).2.symm, fun same => Prod.ext rfl same.symm⟩
  | true =>
    rw [if_pos rfl]
    refine ⟨fun completed => ?_, run_writeBack⟩
    obtain ⟨taken, between, transferred, rest⟩ := run_bind_inv _ completed
    obtain ⟨found, sought, sent, took⟩ := run_bind_inv _ transferred
    have reply : posix platform (.fseek bhandle.offset .seekSet) exit = (found, sought) := by
      obtain ⟨same, rfl⟩ := Prod.mk.inj sent
      exact Prod.ext (Except.ok.inj same) rfl
    cases taken with
    | false => cases (Prod.mk.inj rest).1
    | true =>
      obtain ⟨-, rfl⟩ := Prod.mk.inj rest
      cases found with
      | false => cases (Prod.mk.inj took).1
      | true =>
        obtain ⟨same, rfl⟩ := Prod.mk.inj took
        exact ⟨sought, reply, Prod.ext (Except.ok.inj same) rfl⟩

/-- A release answers success where it is granted behind a success. -/
theorem run_release_iff {rval : RndError} {left after : World} :
    run (posix platform) (release bhandle rval) left = (.ok .success, after) ↔
      rval = .success ∧
        posix platform (.fcntl .unlock bhandle.offset bhandle.size) left = (none, after) := by
  constructor
  · intro completed
    obtain ⟨reply, released, called, rest⟩ := run_bind_inv _ completed
    obtain ⟨same, rfl⟩ := Prod.mk.inj called
    cases reply with
    | some errno => cases (Prod.mk.inj rest).1
    | none =>
      obtain ⟨success, rfl⟩ := Prod.mk.inj rest
      exact ⟨Except.ok.inj success, Prod.ext (Except.ok.inj same) rfl⟩
  · rintro ⟨rfl, released⟩
    rw [release, fcntl, run_bind_ok _ (run_issue released)]
    rfl

theorem run_restore_iff {savedOffset : OffT} {rval : RndError} {written after : World} :
    run (posix platform) (restore bhandle savedOffset rval) written = (.ok .success, after) ↔
      rval = .success ∧ ∃ restored left,
        posix platform (.fseek savedOffset .seekSet) written = (restored, left) ∧
          posix platform (.fcntl .unlock bhandle.offset bhandle.size) left = (none, after) := by
  rcases sent : posix platform (.fseek savedOffset .seekSet) written with ⟨restored, left⟩
  rw [restore, fseek, run_bind_ok _ (run_issue sent), run_release_iff]
  constructor
  · rintro ⟨success, released⟩
    exact ⟨success, restored, left, rfl, released⟩
  · rintro ⟨success, restored', left', same, released⟩
    obtain ⟨-, rfl⟩ := Prod.mk.inj same
    exact ⟨success, released⟩

/-! ## Success with data -/

/-- What a call with data that answers success has done. -/
theorem performed_of_success {after : World}
    (completed : run (posix platform) (rndLockArea handle bhandle true callback) world =
      (.ok .success, after)) : ∃ area changed buffer left,
        Performed platform handle bhandle callback true world area changed buffer left after := by
  rw [rndLockArea_parts] at completed
  obtain ⟨reached, entry, came, rest⟩ := run_bind_inv _ completed
  cases reached with
  | refused errno =>
    obtain ⟨code, returned, other⟩ := @depart_refused platform handle bhandle callback entry errno
    rw [rest] at returned
    exact absurd (Except.ok.inj returned).symm other
  | unsought =>
    obtain ⟨_, kept, -, released⟩ := run_bind_inv _ rest
    cases (run_release_iff.mp released).1
  | unread savedOffset => cases (run_restore_iff.mp rest).1
  | entered area =>
    cases area with
    | none =>
      obtain ⟨-, data, -⟩ := approached_of_run came
      cases data
    | some pair =>
      obtain ⟨⟨changed, buffer⟩, exit, called, behind⟩ := run_bind_inv _ rest
      obtain ⟨rval, written, back, ends⟩ := run_bind_inv _ behind
      obtain ⟨rfl, restored, left, sent, released⟩ := run_restore_iff.mp ends
      exact ⟨_, changed, buffer, left, entry, exit, came, called,
        ⟨written, restored, run_writeBack_iff.mp back, sent⟩, released⟩

/-- A call that has done all this answers success. -/
theorem success_of_performed {area : Option (OffT × List UInt8)} {changed : Bool}
    {buffer : List UInt8} {left after : World}
    (performed : Performed platform handle bhandle callback true world area changed buffer left
      after) :
    run (posix platform) (rndLockArea handle bhandle true callback) world =
      (.ok .success, after) := by
  obtain ⟨entry, exit, came, called, put, released⟩ := performed
  rw [rndLockArea_parts, run_bind_ok _ came]
  cases area with
  | none =>
    obtain ⟨-, data, -⟩ := approached_of_run came
    cases data
  | some pair =>
    obtain ⟨written, restored, back, sent⟩ := put
    rw [Option.map_some] at called
    rw [depart, run_bind_ok _ called]
    dsimp only
    rw [run_bind_ok _ (run_writeBack_iff.mpr back)]
    exact run_restore_iff.mpr ⟨rfl, restored, left, sent, released⟩

/-- A buffer that the stream has taken is in the file as the stream knows it. -/
theorem WrittenOver.held {buffer : List UInt8} {exit written : World}
    (replaces : WrittenOver platform bhandle buffer exit written) :
    slice written.file bhandle.offset.toNat buffer.length = buffer := by
  obtain ⟨sought, sent, took⟩ := replaces
  have moved : AfterSeek exit bhandle.offset .seekSet true sought := by
    have effect := @posix_fseek_after platform exit bhandle.offset .seekSet
    rw [sent] at effect
    exact effect
  have wrote : AfterWrite sought buffer true written := by
    have effect := @posix_fwrite_after platform sought buffer
    rw [took] at effect
    exact effect
  have place : bhandle.offset.toNat = sought.position := congrArg Int.toNat (moved.found rfl).symm
  rw [wrote.file, place, slice_patch_same]

/-- What a call with data has done is on the disk, or the seek that sent the stream back has lost
it. -/
theorem Performed.reached_disk {area : Option (OffT × List UInt8)} {buffer : List UInt8}
    {left after : World}
    (performed : Performed platform handle bhandle callback true world area true buffer left after) :
    slice left.disk bhandle.offset.toNat buffer.length = buffer ∨
      LossHidden platform handle bhandle callback world := by
  obtain ⟨entry, exit, came, called, put, released⟩ := performed
  cases area with
  | none =>
    obtain ⟨-, data, -⟩ := approached_of_run came
    cases data
  | some pair =>
    obtain ⟨written, restored, back, sent⟩ := put
    have replaces : WrittenOver platform bhandle buffer exit written := back
    have granted := (fcntl_granted.mp released).2.1
    rcases @FromPosition.posix_scheduled platform (.fseek pair.1 .seekSet) written with
      sound | ⟨fault, scheduled, broken⟩
    · rw [sent, unfaulted] at sound
      have disk : left.disk = written.file := by
        split_ifs at sound <;> obtain ⟨-, rfl⟩ := Prod.mk.inj sound <;> rfl
      rw [disk]
      exact .inl replaces.held
    · rw [sent] at broken
      obtain ⟨-, rfl⟩ := Prod.mk.inj broken
      by_cases kept : slice (written.reached fault.lost) bhandle.offset.toNat buffer.length = buffer
      · exact .inl kept
      · exact .inr ⟨pair.1, pair.2, entry, buffer, exit, written, fault, came, called, replaces,
          scheduled, kept, granted⟩

/-- Where a loss is hidden, the disk does not hold what the callback asked for. -/
theorem LossHidden.not_happened (hidden : LossHidden platform handle bhandle callback world) :
    ¬ AllHappened platform handle bhandle callback true world ∧ ∃ after,
      run (posix platform) (rndLockArea handle bhandle true callback) world =
        (.ok .success, after) := by
  obtain ⟨savedOffset, bytes, entry, buffer, exit, written, fault, came, called, replaces,
    scheduled, lost,
    granted⟩ := hidden
  have sent : posix platform (.fseek savedOffset .seekSet) written =
      (false, (written.drain fault.lost).failed fault.errno) := by
    unfold posix
    rw [scheduled]
    rfl
  obtain ⟨-, -, -, -, -, -, start, place, -⟩ := approached_of_run came
  have released : posix platform (.fcntl .unlock bhandle.offset bhandle.size)
      ((written.drain fault.lost).failed fault.errno) = (none, _) :=
    fcntl_granted.mpr ⟨place ▸ Int.natCast_nonneg start, granted, rfl⟩
  constructor
  · -- each of the calls has one reply and one effect
    rintro ⟨area, changed, buffer', left, after, ⟨entry', exit', came', called', put, -⟩, reached⟩
    obtain ⟨same, rfl⟩ := Prod.mk.inj (came.symm.trans came')
    obtain rfl := Approach.entered.inj (Except.ok.inj same)
    obtain ⟨same, rfl⟩ := Prod.mk.inj (called.symm.trans called')
    obtain ⟨rfl, rfl⟩ := Prod.mk.inj (Except.ok.inj same)
    obtain ⟨written', restored, back, sent'⟩ := put
    have again : WrittenOver platform bhandle buffer exit written' := back
    obtain ⟨-, rfl⟩ := Prod.mk.inj ((run_writeBack replaces).symm.trans (run_writeBack again))
    obtain ⟨-, rfl⟩ := Prod.mk.inj (sent.symm.trans sent')
    exact lost (reached rfl rfl)
  · exact ⟨_, success_of_performed
      ⟨entry, exit, came, called, ⟨written, _, replaces, sent⟩, released⟩⟩

/-! ## Without data -/

/-- Without data, a call comes to its callback where the lock is granted. -/
theorem approach_without_data {area : Option (OffT × List UInt8)} {entry : World} :
    run (posix platform) (approach bhandle false) world = (.ok (.entered area), entry) ↔
      area = none ∧ 0 ≤ bhandle.offset ∧ platform.faults world.clock = none ∧
        entry = { world with sysErrno := 0 }.tick := by
  constructor
  · intro came
    obtain ⟨_, primed, first, rest⟩ := run_bind_inv _ came
    obtain ⟨-, rfl⟩ := Prod.mk.inj ((run_issue posix_primeHandle).symm.trans first)
    obtain ⟨reply, locked, called, rest⟩ := run_bind_inv _ rest
    obtain ⟨same, rfl⟩ := Prod.mk.inj called
    cases reply with
    | some errno => cases (Prod.mk.inj rest).1
    | none =>
      obtain ⟨entered, rfl⟩ := Prod.mk.inj rest
      obtain ⟨inside, unfailed, left⟩ := fcntl_granted.mp (Prod.ext (Except.ok.inj same) rfl)
      exact ⟨(Approach.entered.inj (Except.ok.inj entered)).symm, inside, unfailed, left⟩
  · rintro ⟨rfl, inside, unfailed, rfl⟩
    have locked : posix platform (.fcntl .writeLock bhandle.offset bhandle.size)
        { world with sysErrno := 0 } = (none, { world with sysErrno := 0 }.tick) :=
      fcntl_granted.mpr ⟨inside, unfailed, rfl⟩
    rw [approach, primeHandle, run_bind_ok _ (run_issue posix_primeHandle), fcntl,
      run_bind_ok _ (run_issue locked)]
    rfl

theorem allHappened_without_data :
    AllHappened platform handle bhandle callback false world ↔
      GrantedThrough platform handle bhandle callback world := by
  constructor
  · rintro ⟨area, changed, buffer, left, after, ⟨entry, exit, came, called, put, released⟩, -⟩
    obtain ⟨rfl, inside, unfailed, rfl⟩ := approach_without_data.mp came
    obtain rfl : left = exit := put
    exact ⟨inside, unfailed, _, left, called, (fcntl_granted.mp released).2.1⟩
  · rintro ⟨inside, unfailed, ⟨changed, buffer⟩, exit, called, kept⟩
    refine ⟨none, changed, buffer, exit, exit.tick, ⟨_, exit, ?_, called, rfl, ?_⟩, Bool.noConfusion⟩
    · exact approach_without_data.mpr ⟨rfl, inside, unfailed, rfl⟩
    · exact fcntl_granted.mpr ⟨inside, kept, rfl⟩

/-- Without data the result is never success. -/
theorem rndLockArea_without_data {after : World} :
    run (posix platform) (rndLockArea handle bhandle false callback) world ≠
      (.ok .success, after) := by
  intro completed
  rw [rndLockArea_parts] at completed
  obtain ⟨reached, entry, came, rest⟩ := run_bind_inv _ completed
  cases reached with
  | refused errno =>
    obtain ⟨code, returned, other⟩ := @depart_refused platform handle bhandle callback entry errno
    rw [rest] at returned
    exact absurd (Except.ok.inj returned).symm other
  | unsought =>
    obtain ⟨_, kept, -, released⟩ := run_bind_inv _ rest
    cases (run_release_iff.mp released).1
  | unread savedOffset => cases (run_restore_iff.mp rest).1
  | entered area =>
    obtain ⟨rfl, -⟩ := approach_without_data.mp came
    obtain ⟨_, exit, -, released⟩ := run_bind_inv _ rest
    cases (run_release_iff.mp released).1

/-! ## Both modes -/

/-- With data the result tells what happened unless a loss is hidden; without data it does where
something fails. -/
theorem rndLockArea_tells {retrieveData : Bool} :
    AnswerTells platform handle bhandle callback retrieveData world ↔
      (retrieveData = true ∧ ¬ LossHidden platform handle bhandle callback world) ∨
        (retrieveData = false ∧ ¬ GrantedThrough platform handle bhandle callback world) := by
  cases retrieveData with
  | true =>
    constructor
    · intro tells
      refine .inl ⟨rfl, fun hidden => ?_⟩
      obtain ⟨missed, after, completed⟩ := hidden.not_happened
      exact missed ((tells.tells .success after completed).mp rfl)
    · rintro (⟨-, told⟩ | ⟨data, -⟩)
      · refine ⟨rndLockArea_returns, fun rval after completed =>
          ⟨fun success => ?_, fun happened => ?_⟩⟩
        · rw [success] at completed
          obtain ⟨area, changed, buffer, left, performed⟩ := performed_of_success completed
          refine ⟨area, changed, buffer, left, after, performed, fun _ asked => ?_⟩
          subst asked
          exact performed.reached_disk.resolve_right told
        · obtain ⟨area, changed, buffer, left, after', performed, -⟩ := happened
          have answer := completed.symm.trans (success_of_performed performed)
          exact Except.ok.inj (Prod.mk.inj answer).1
      · cases data
  | false =>
    constructor
    · intro tells
      refine .inr ⟨rfl, fun granted => ?_⟩
      have returned : ∃ rval,
        (run (posix platform) (rndLockArea handle bhandle false callback) world).1 =
          .ok rval := by
        obtain ⟨inside, unfailed, answer, exit, called, -⟩ := id granted
        rw [rndLockArea_parts, run_bind_ok _ (approach_without_data.mpr ⟨rfl, inside, unfailed, rfl⟩)]
        refine depart_returns fun area same => ?_
        obtain rfl := Approach.entered.inj same
        exact ⟨answer, congrArg Prod.fst called⟩
      obtain ⟨rval, done⟩ := returned
      have completed := run_eq_of_value (posix platform) done
      have success := (tells.tells rval _ completed).mpr (allHappened_without_data.mpr granted)
      rw [success] at completed
      exact rndLockArea_without_data completed
    · rintro (⟨data, -⟩ | ⟨-, withheld⟩)
      · cases data
      · refine ⟨rndLockArea_returns, fun rval after completed => iff_of_false (fun success => ?_) ?_⟩
        · rw [success] at completed
          exact rndLockArea_without_data completed
        · exact fun happened => withheld (allHappened_without_data.mp happened)

end Steps

/-- Without data and without a failure, everything happens and the result is `RND_FAIL`. -/
theorem rndLockArea_not_tells :
    ¬ AnswerTells (Platform.sound fun _ _ => 0) (freshHandle 0 80 3) ⟨16, 8⟩ fillingCallback false
      (freshWorld 80 3) := by
  intro tells
  have success := (tells.tells .fail _ rfl).mpr
    ⟨none, _, _, _, _, ⟨_, _, rfl, rfl, rfl, rfl⟩, Bool.noConfusion⟩
  exact RndError.noConfusion success

end Recnodb
