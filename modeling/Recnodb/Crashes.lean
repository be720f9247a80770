import Recnodb.Outcomes

/-!
# Crashes

A process that ends at one of its calls leaves the file as it was in front of that call.
That is what it leaves if the call and every later one fail without an effect, so a crash is
one more platform: what holds of the file behind a program on every platform that ends its
calls at some time holds at every moment of its runs.
-/

namespace Recnodb

open Interaction Octets Program

variable {α β : Type}

/-- The platform on which every call from a time on fails, and nothing is written any more. -/
def Platform.endedAt (platform : Platform) (time : Nat) : Platform :=
  { platform with faults := fun now =>
    if now < time then platform.faults now else some ⟨0, 0, 0, none⟩ }

section Ended

variable {platform : Platform} {time : Nat} {world : World} {request : Call}

/-- In front of the crash the platform is as it was. -/
theorem endedAt_before {now : Nat} (early : now < time) :
    (platform.endedAt time).faults now = platform.faults now := if_pos early

/-- Behind it every call fails without an effect. -/
theorem endedAt_behind {now : Nat} (late : ¬ now < time) :
    (platform.endedAt time).faults now = some ⟨0, 0, 0, none⟩ := if_neg late

/-- What holds of every fault, and of one without an effect, holds of those of a platform that ends. -/
theorem endedAt_faults {holds : Fault → Prop}
    (each : ∀ now fault, platform.faults now = some fault → holds fault)
    (none : holds ⟨0, 0, 0, none⟩) :
    ∀ now fault, (platform.endedAt time).faults now = some fault → holds fault := by
  intro now fault scheduled
  by_cases early : now < time
  · rw [endedAt_before early] at scheduled
    exact each now fault scheduled
  · rw [endedAt_behind early] at scheduled
    exact Option.some.inj scheduled ▸ none

/-- Time does not run backwards. -/
theorem posix_clock : world.clock ≤ (posix platform request world).2.clock := by
  rcases @FromPosition.posix_cases platform request world with sound | ⟨fault, broken⟩
  · rw [sound]
    cases request with
    | fseek | fread | fwrite | fcntl =>
      simp only [unfaulted]
      split_ifs <;> exact Nat.le_succ _
    | primeHandle | keepErrno | note => exact Nat.le_refl _
    | _ => exact Nat.le_succ _
  · rw [broken]
    cases request with
    | primeHandle | keepErrno | note => exact Nat.le_refl _
    | _ => exact Nat.le_succ _

/-- Before the end, and on calls that take no time, the platform is as it was. -/
theorem posix_endedAt (early : world.clock < time ∨
      (posix platform request world).2.clock ≤ world.clock) :
    posix (platform.endedAt time) request world = posix platform request world := by
  by_cases before : world.clock < time
  · rw [posix, posix, endedAt_before before]
    rfl
  · have still := early.resolve_left before
    rw [posix, endedAt_behind before]
    rcases @FromPosition.posix_cases platform request world with sound | ⟨fault, broken⟩
    · rw [sound] at still ⊢
      cases request with
      | primeHandle | keepErrno | note => rfl
      | fseek | fread | fwrite | fcntl =>
        simp only [unfaulted] at still
        split_ifs at still <;> exact absurd still (Nat.not_succ_le_self _)
      | _ => exact absurd still (Nat.not_succ_le_self _)
    · rw [broken] at still ⊢
      cases request with
      | primeHandle | keepErrno | note => rfl
      | _ => exact absurd still (Nat.not_succ_le_self _)

/-- Behind the end, nothing changes the file. -/
theorem posix_ended (ended : time ≤ world.clock) :
    (posix (platform.endedAt time) request world).2.file = world.file := by
  rw [posix, endedAt_behind (Nat.not_lt_of_le ended)]
  cases request with
  | fwrite bytes =>
    change (world.flush.hold (bytes.take (Fault.taken ⟨0, 0, 0, none⟩ world))).file = world.file
    rw [World.hold_file, Fault.taken, if_pos rfl, Nat.zero_min, List.take_zero, patch_nil]
    rfl
  | _ => rfl

/-- A run behind the crash leaves the file. -/
theorem run_ended (ended : time ≤ world.clock) (program : Prog α) :
    (run (posix (platform.endedAt time)) program world).2.file = world.file := by
  refine (run_keeps _ (fun after => time ≤ after.clock ∧ after.file = world.file) ?_ program world
    ⟨ended, rfl⟩).2
  rintro request state ⟨late, same⟩
  exact ⟨Nat.le_trans late posix_clock, (posix_ended late).trans same⟩

/-- The calls of a run are made no earlier than it starts. -/
theorem log_clock {program : Prog α} {moment : Moment Call Answer World}
    (among : moment ∈ log (posix platform) program world) : world.clock ≤ moment.before.clock := by
  induction program generalizing world with
  | ret value => exact absurd among List.not_mem_nil
  | stop reason => exact absurd among List.not_mem_nil
  | call request next ih =>
    rcases List.mem_cons.mp among with rfl | later
    · exact Nat.le_refl _
    · exact Nat.le_trans posix_clock (ih _ later)

/-- A program that ends in front of one of its calls leaves the file as it was there. -/
theorem run_endedAt {program : Prog α} {moment : Moment Call Answer World}
    (among : moment ∈ log (posix platform) program world) :
    (run (posix (platform.endedAt moment.before.clock)) program world).2.file =
      moment.before.file := by
  induction program generalizing world with
  | ret value => exact absurd among List.not_mem_nil
  | stop reason => exact absurd among List.not_mem_nil
  | call request next ih =>
    rcases List.mem_cons.mp among with rfl | later
    · exact run_ended (Nat.le_refl _) _
    · have here := ih _ later
      have onward : (posix platform request world).2.clock ≤ moment.before.clock :=
        log_clock later
      have same : posix (platform.endedAt moment.before.clock) request world =
          posix platform request world := by
        apply posix_endedAt
        omega
      rw [run, same]
      exact here

end Ended

/-! ## Programs that complete -/

/-- Every run from a state with this file and position completes, as long as nothing is lost. -/
def CompletesFrom (platform : Platform) (file : List UInt8) (position : Nat) (program : Prog α) :
    Prop :=
  ∀ world, world.file = file → world.position = position →
    Lossless platform (log (posix platform) program world) →
    ∃ value after, run (posix platform) program world = (.ok value, after)

/-- Every run from a state with this file completes, as long as nothing is lost. -/
def Completes (platform : Platform) (file : List UInt8) (program : Prog α) : Prop :=
  ∀ position, CompletesFrom platform file position program

namespace CompletesFrom

variable {platform : Platform} {file : List UInt8} {position : Nat}

/-- A program that always answers completes. -/
theorem of_answers {program : Prog α} (answers : program.Answers fun _ => True) :
    CompletesFrom platform file position program := by
  intro world _ _ _
  obtain ⟨value, after, completed, -⟩ := run_answers (posix platform) answers world
  exact ⟨value, after, completed⟩

/-- The rule for one call. -/
theorem call {request : Call} {rest : Answer request → Prog β}
    (second : ∀ world reply after, world.file = file → world.position = position →
      Spared platform world request → posix platform request world = (reply, after) →
      CompletesFrom platform after.file after.position (rest reply)) :
    CompletesFrom platform file position (issue request >>= rest) := by
  intro world same here lossless
  obtain ⟨spared, later⟩ := lossless_cons.mp lossless
  exact second world _ _ same here spared rfl _ rfl rfl later

/-- The rule for a call that keeps the file. -/
theorem keeping (request : Call) {rest : Answer request → Prog β} (keeping : request.Keeping)
    (second : ∀ reply, Completes platform file (rest reply)) :
    CompletesFrom platform file position (issue request >>= rest) := by
  refine call fun world reply after same _ spared outcome => ?_
  have kept := posix_keeping keeping spared
  rw [outcome] at kept
  dsimp only at kept
  rw [kept, same]
  exact second reply _

/-- The sequence rule, by what holds behind the first part. -/
theorem bind {program : Prog α} {rest : α → Prog β} {middle : α → List UInt8 → List Event → Prop}
    (first : CompletesFrom platform file position program)
    (allowed : UnderFaults platform file program middle)
    (second : ∀ value after past, middle value after past → Completes platform after (rest value)) :
    CompletesFrom platform file position (program >>= rest) := by
  intro world same here lossless
  have front : Lossless platform (log (posix platform) program world) :=
    fun moment among => lossless moment (log_bind _ program rest world ▸ List.mem_append_left _ among)
  obtain ⟨value, between, completed⟩ := first world same here front
  have established := allowed world same value between completed front
  rw [log_bind_ok _ completed] at lossless
  rw [run_bind_ok _ completed]
  exact second value _ _ established _ between rfl rfl (lossless_append.mp lossless).2

/-- A seek finds its target, or the stream stays. -/
theorem fseek_bind {offset : OffT} {rest : Bool → Prog β}
    (found : ∀ target : Nat, offset = target → CompletesFrom platform file target (rest true))
    (lost : CompletesFrom platform file position (rest false)) :
    CompletesFrom platform file position (fseek offset .seekSet >>= rest) := by
  refine call fun world reply after same here spared outcome => ?_
  subst same here
  rcases FromPosition.posix_spared spared trivial with sound | ⟨fault, -, drained, broken⟩
  · rw [sound, unfaulted] at outcome
    split_ifs at outcome with inside
    · obtain ⟨rfl, rfl⟩ := Prod.mk.inj outcome
      exact found offset.toNat (Int.toNat_of_nonneg inside.1).symm
    · obtain ⟨rfl, rfl⟩ := Prod.mk.inj outcome
      exact lost
  · rw [broken, faulted, drained] at outcome
    obtain ⟨rfl, rfl⟩ := Prod.mk.inj outcome
    exact lost

/-- A read delivers the range at the position, or fails. -/
theorem fread_bind {size : Nat}
    {rest : Option { bytes : List UInt8 // bytes.length = size } → Prog β}
    (read : ∀ inside : position + size ≤ file.length,
      Completes platform file (rest (some ⟨slice file position size, slice_length_inside inside⟩)))
    (lost : Completes platform file (rest none)) :
    CompletesFrom platform file position (fread size >>= rest) := by
  refine call fun world reply after same here spared outcome => ?_
  subst same here
  rcases FromPosition.posix_spared spared trivial with sound | ⟨fault, -, drained, broken⟩
  · rw [sound, unfaulted] at outcome
    split_ifs at outcome with inside
    · obtain ⟨rfl, rfl⟩ := Prod.mk.inj outcome
      exact read inside.2 _
    · obtain ⟨rfl, rfl⟩ := Prod.mk.inj outcome
      exact lost _
  · rw [broken, faulted, drained] at outcome
    obtain ⟨rfl, rfl⟩ := Prod.mk.inj outcome
    exact lost _

end CompletesFrom

/-! ## Every moment -/

/-- A crash loses nothing by itself. -/
theorem Platform.Durable.endedAt {platform : Platform} (durable : platform.Durable) (time : Nat) :
    (platform.endedAt time).Durable :=
  endedAt_faults durable rfl

/-- What holds of the file behind a program on every platform that ends its calls at some time
holds in front of every call of its runs. -/
theorem at_every_moment (holds : List UInt8 → Prop) {platform : Platform} {file : List UInt8}
    {program : Prog α} (durable : platform.Durable)
    (allowed : ∀ time, UnderFaults (platform.endedAt time) file program fun _ after _ => holds after)
    (completes : ∀ time, Completes (platform.endedAt time) file program) {world : World}
    (same : world.file = file) :
    ∀ moment ∈ log (posix platform) program world, holds moment.before.file := by
  intro moment among
  have lossless := (durable.endedAt moment.before.clock).lossless
  obtain ⟨value, after, completed⟩ := completes moment.before.clock _ world same rfl (lossless _)
  have ended := allowed moment.before.clock world same value after completed (lossless _)
  have left := run_endedAt among
  rw [completed] at left
  exact left ▸ ended

/-- The disk behind a call is what it was, or the file in front of the call or behind it. -/
theorem posix_disk {platform : Platform} {request : Call} {world : World} :
    (posix platform request world).2.disk = world.disk ∨
      (posix platform request world).2.disk = world.file ∨
      (posix platform request world).2.disk = (posix platform request world).2.file := by
  rcases @FromPosition.posix_scheduled platform request world with
    sound | ⟨fault, scheduled, broken⟩
  · rw [sound]
    cases request with
    | fopen | fclose => exact .inr (.inr rfl)
    | fseek | fread =>
      simp only [unfaulted]
      split_ifs <;> exact .inr (.inl rfl)
    | fwrite bytes =>
      simp only [unfaulted]
      split_ifs
      · rcases world.hold_taken bytes with ⟨same, -⟩ | through
        · exact .inl same
        · exact .inr (.inr (World.file_of_empty through).symm)
      · exact .inl rfl
    | fcntl =>
      simp only [unfaulted]
      split_ifs <;> exact .inl rfl
    | _ => exact .inl rfl
  · rw [broken]
    cases request with
    | fclose | fseek | fread | fwrite => exact .inr (.inr rfl)
    | _ => exact .inl rfl

section Disk

variable {platform : Platform} {holds : List UInt8 → Prop} {program : Prog α} {world : World}

/-- What holds of the file in front of every call and behind the last one holds of the first one. -/
theorem holds_start (each : ∀ moment ∈ log (posix platform) program world, holds moment.before.file)
    (last : holds (run (posix platform) program world).2.file) : holds world.file := by
  cases program with
  | ret value => exact last
  | stop reason => exact last
  | call request next => exact each _ List.mem_cons_self

/-- What holds of the file as the stream knows it, in front of every call and behind the last one,
holds of the disk. -/
theorem on_disk (first : holds world.disk)
    (each : ∀ moment ∈ log (posix platform) program world, holds moment.before.file)
    (last : holds (run (posix platform) program world).2.file) :
    (∀ moment ∈ log (posix platform) program world, holds moment.before.disk) ∧
      holds (run (posix platform) program world).2.disk := by
  induction program generalizing world with
  | ret value => exact ⟨fun _ among => absurd among List.not_mem_nil, first⟩
  | stop reason => exact ⟨fun _ among => absurd among List.not_mem_nil, first⟩
  | call request next ih =>
    obtain ⟨here, later⟩ := List.forall_mem_cons.mp each
    have disk : holds (posix platform request world).2.disk := by
      rcases @posix_disk platform request world with same | same | same
      · rw [same]
        exact first
      · rw [same]
        exact here
      · rw [same]
        exact holds_start later last
    obtain ⟨moments, final⟩ := ih _ disk later last
    exact ⟨List.forall_mem_cons.mpr ⟨first, moments⟩, final⟩

/-- A call that passes on what the stream holds. -/
def Call.passes : Call → Bool
  | .fclose _ => true
  | .fseek _ _ => true
  | .fread _ => true
  | _ => false

/-- What the stream held at first was passed on. -/
def passedOn (past : List (Moment Call Answer World)) : Bool :=
  past.any fun moment => moment.request.passes

/-- Behind such a call the disk is the file as the stream knows it. -/
theorem posix_passes {request : Call} (passes : request.passes = true) :
    (posix platform request world).2.disk = (posix platform request world).2.file := by
  rcases @FromPosition.posix_cases platform request world with sound | ⟨fault, broken⟩
  · rw [sound]
    cases request with
    | fclose => rfl
    | fseek | fread =>
      simp only [unfaulted]
      split_ifs <;> rfl
    | _ => exact absurd passes Bool.false_ne_true
  · rw [broken]
    cases request with
    | fclose | fseek | fread => rfl
    | _ => exact absurd passes Bool.false_ne_true

/-- A list with an item in it is not empty. -/
theorem cons_not_nil {γ : Type} {front behind : List γ} {one : γ} :
    ¬ front ++ one :: behind = [] := by
  simp

/-- Behind a call that passes on what the stream holds, what holds of the file in front of every
call and behind the last one holds of the disk, whatever was on it before. -/
theorem passed_disk
    (each : ∀ moment ∈ log (posix platform) program world, holds moment.before.file)
    (last : holds (run (posix platform) program world).2.file) :
    (∀ front moment behind, log (posix platform) program world = front ++ moment :: behind →
      passedOn front = true → holds moment.before.disk) ∧
    (passedOn (log (posix platform) program world) = true →
      holds (run (posix platform) program world).2.disk) := by
  induction program generalizing world with
  | ret value => exact ⟨fun _ _ _ split => absurd split.symm cons_not_nil, nofun⟩
  | stop reason => exact ⟨fun _ _ _ split => absurd split.symm cons_not_nil, nofun⟩
  | call request next ih =>
    have later := (List.forall_mem_cons.mp each).2
    obtain ⟨moments, final⟩ := ih _ later last
    by_cases passes : request.passes = true
    · have disk : holds (posix platform request world).2.disk := by
        rw [posix_passes passes]
        exact holds_start later last
      obtain ⟨all, final⟩ := on_disk disk later last
      refine ⟨fun front moment behind split passed => ?_, fun _ => final⟩
      cases front with
      | nil => exact absurd passed Bool.false_ne_true
      | cons first front =>
        apply all
        rw [(List.cons.inj split).2]
        exact List.mem_append_right _ List.mem_cons_self
    · refine ⟨fun front moment behind split passed => ?_, fun passed => ?_⟩
      · cases front with
        | nil => exact absurd passed Bool.false_ne_true
        | cons first front =>
          obtain ⟨rfl, rest⟩ := List.cons.inj split
          exact moments front moment behind rest
            ((Bool.or_eq_true _ _).mp passed |>.resolve_left passes)
      · exact final ((Bool.or_eq_true _ _).mp passed |>.resolve_left passes)

/-- Calls that leave the disk and the stream come first, up to one that passes on what the stream
holds. -/
def SeeksFirst : Prog α → Prop
  | .ret _ => True
  | .stop _ => True
  | .call request next =>
      request.passes = true ∨ (request.Aside ∨ request = .ftell) ∧ ∀ reply, SeeksFirst (next reply)

/-- Two parts that seek before they write. -/
theorem seeksFirst_bind {rest : α → Prog β} (first : SeeksFirst program)
    (second : ∀ value, SeeksFirst (rest value)) : SeeksFirst (program >>= rest) := by
  induction program with
  | ret value => exact second value
  | stop reason => trivial
  | call request next ih => exact first.imp_right fun still =>
    ⟨still.1, fun reply => ih _ (still.2 reply)⟩

/-- A program that starts with a seek. -/
theorem seeksFirst_fseek {offset : OffT} {whence : Whence} {rest : Bool → Prog β} :
    SeeksFirst (fseek offset whence >>= rest) := .inl rfl

/-- As long as no call has passed on what the stream holds, the disk is as it was. -/
theorem unpassed_disk (first : SeeksFirst program) :
    (∀ front moment behind, log (posix platform) program world = front ++ moment :: behind →
      passedOn front = false → moment.before.disk = world.disk) ∧
    (passedOn (log (posix platform) program world) = false →
      (run (posix platform) program world).2.disk = world.disk) := by
  induction program generalizing world with
  | ret value => exact ⟨fun _ _ _ split => absurd split.symm cons_not_nil, fun _ => rfl⟩
  | stop reason => exact ⟨fun _ _ _ split => absurd split.symm cons_not_nil, fun _ => rfl⟩
  | call request next ih =>
    rcases first with passes | ⟨still, onward⟩
    · refine ⟨fun front moment behind split unpassed => ?_, fun unpassed => ?_⟩
      · cases front with
        | nil =>
          obtain ⟨rfl, -⟩ := List.cons.inj split
          rfl
        | cons first front =>
          obtain ⟨rfl, -⟩ := List.cons.inj split
          rw [passedOn, List.any_cons, passes] at unpassed
          exact absurd unpassed.symm Bool.false_ne_true
      · rw [log, passedOn, List.any_cons, passes] at unpassed
        exact absurd unpassed.symm Bool.false_ne_true
    · have same : (posix platform request world).2.disk = world.disk := by
        rcases still with aside | rfl
        · exact (posix_unmoved aside).disk
        · exact posix_ftell_after.unmoved.disk
      obtain ⟨moments, final⟩ := @ih _ (posix platform request world).2 (onward _)
      refine ⟨fun front moment behind split unpassed => ?_, fun unpassed => ?_⟩
      · cases front with
        | nil =>
          obtain ⟨rfl, -⟩ := List.cons.inj split
          rfl
        | cons first front =>
          obtain ⟨rfl, rest⟩ := List.cons.inj split
          exact (moments front moment behind rest ((Bool.or_eq_false_iff.mp unpassed).2)).trans same
      · exact (final ((Bool.or_eq_false_iff.mp unpassed).2)).trans same

end Disk

end Recnodb
