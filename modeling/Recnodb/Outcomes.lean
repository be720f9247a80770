import Recnodb.FaultLogic

/-!
# Outcomes of single calls

What one call may do to the file and to the stream, whether it fails or not, and
which replies report a failure. A seek or a read that succeeds has passed on what the
stream held, and one that fails may have lost some of it. A failed seek leaves the
stream where it was, a failed write may leave any prefix of its bytes behind, and only
a completed seek tells where the stream stands afterwards. The rules at the end run a
program one call at a time and keep the calls made, so that a property of a run may
speak about the calls that failed and about the position in which the stream is left.
-/

namespace Recnodb

open Interaction Octets Program

/-- The reply of a call reports a failure. -/
def failedCall {σ : Type} (moment : Moment Call Answer σ) : Bool :=
  match moment with
  | ⟨_, .fopen _, reply⟩ => Option.isNone reply
  | ⟨_, .fclose _, reply⟩ => !reply
  | ⟨_, .fseek _ _, reply⟩ => !reply
  | ⟨_, .ftell, reply⟩ => decide ((reply : OffT) = -1)
  | ⟨_, .fread _, reply⟩ => Option.isNone reply
  | ⟨_, .fwrite _, reply⟩ => !reply
  | ⟨_, .fcntl _ _ _, reply⟩ => Option.isSome reply
  | _ => false

/-- Some call of a run failed. -/
def someFailed {σ : Type} (past : List (Moment Call Answer σ)) : Bool := past.any failedCall

@[simp] theorem someFailed_nil {σ : Type} : someFailed ([] : List (Moment Call Answer σ)) = false :=
  rfl

/-- The first call of a run failed, or some call behind it. -/
@[simp] theorem someFailed_cons {σ : Type} (moment : Moment Call Answer σ)
    (past : List (Moment Call Answer σ)) :
    someFailed (moment :: past) = (failedCall moment || someFailed past) := rfl

/-- Some call of two parts in a row failed. -/
@[simp] theorem someFailed_append {σ : Type} (first second : List (Moment Call Answer σ)) :
    someFailed (first ++ second) = (someFailed first || someFailed second) :=
  List.any_append

variable {platform : Platform} {world after : World}

/-! ## Seeks -/

/-- The file is as the stream knew it, but for a part of what it held, which may be lost. -/
def SameFile (world after : World) : Prop := ∃ lost, after.file = world.reached lost

/-- A file that is as the stream knew it. -/
theorem SameFile.of_eq (same : after.file = world.file) : SameFile world after := ⟨none, same⟩

/-- What a stream does not hold cannot be lost. -/
theorem World.reached_empty (empty : world.held = []) (lost : Option Nat) :
    world.reached lost = world.file := congrArg World.file (drain_empty empty lost)

/-- Where the stream held nothing, the file is as it was. -/
theorem SameFile.file (same : SameFile world after) (empty : world.held = []) :
    after.file = world.file := by
  obtain ⟨lost, left⟩ := same
  exact left.trans (World.reached_empty empty lost)

/-- A further part of the run changes nothing where the stream held nothing in between. -/
theorem SameFile.trans {between : World} (first : SameFile world between) (empty : between.held = [])
    (second : SameFile between after) : SameFile world after := by
  obtain ⟨lost, left⟩ := first
  exact ⟨lost, (second.file empty).trans left⟩

/-- The stream holds nothing any more: what it held is on the disk, or some of it is lost. -/
structure Drained (world after : World) : Prop where
  held : after.held = []
  disk : ∃ lost, after.disk = world.reached lost

/-- What reaches the disk makes it no shorter. -/
theorem Drained.longer (drained : Drained world after) : world.disk.length ≤ after.disk.length := by
  obtain ⟨-, lost, disk⟩ := drained
  exact disk ▸ world.disk_le_reached lost

/-- A stream that holds nothing any more knows the file as it was, but for a loss. -/
theorem Drained.same (drained : Drained world after) : SameFile world after := by
  obtain ⟨held, lost, disk⟩ := drained
  exact ⟨lost, by rw [World.file, held, puts_nil, disk]⟩

/-- What a seek leaves, by its reply. -/
structure AfterSeek (world : World) (offset : OffT) (whence : Whence) (reply : Bool) (after : World) :
    Prop where
  drained : Drained world after
  file : reply = true → after.file = world.file
  clock : after.clock = world.clock + 1
  found : reply = true → (after.position : OffT) = world.target offset whence
  lost : reply = false → after.position = world.position

/-- Every seek leaves what is said of its reply. -/
theorem posix_fseek_after (offset : OffT) (whence : Whence) :
    AfterSeek world offset whence (posix platform (.fseek offset whence) world).1
      (posix platform (.fseek offset whence) world).2 := by
  rcases @FromPosition.posix_cases platform (.fseek offset whence) world with
    sound | ⟨fault, broken⟩
  · rw [sound, unfaulted]
    split_ifs with inside
    · exact ⟨⟨rfl, none, rfl⟩, fun _ => rfl, rfl, fun _ => Int.toNat_of_nonneg inside.1,
        Bool.noConfusion⟩
    · exact ⟨⟨rfl, none, rfl⟩, Bool.noConfusion, rfl, Bool.noConfusion, fun _ => rfl⟩
  · rw [broken]
    exact ⟨⟨rfl, fault.lost, rfl⟩, Bool.noConfusion, rfl, Bool.noConfusion, fun _ => rfl⟩

/-- Whether a seek to the end succeeds. -/
theorem posix_fseek_end : (posix platform (.fseek 0 .seekEnd) world).1 = true ↔
    platform.faults world.clock = none ∧ world.file.length ≤ offMax := by
  have target : world.target 0 .seekEnd = (world.file.length : OffT) := Int.add_zero _
  unfold posix
  cases platform.faults world.clock with
  | none =>
    rw [unfaulted, target]
    split_ifs with inside
    · exact iff_of_true rfl ⟨rfl, Int.ofNat_le.mp inside.2⟩
    · refine iff_of_false (by simp) fun room => inside ⟨Int.natCast_nonneg _, ?_⟩
      exact Int.ofNat_le.mpr room.2
  | some fault => exact iff_of_false (by simp [faulted]) fun room => Option.some_ne_none _ room.1

/-- The disk and the stream are as they were, with what the stream holds. -/
structure Unmoved (world after : World) : Prop where
  disk : after.disk = world.disk
  held : after.held = world.held
  position : after.position = world.position

/-- What can reach the disk is the same. -/
theorem Unmoved.reached (unmoved : Unmoved world after) (lost : Option Nat) :
    after.reached lost = world.reached lost := by
  unfold World.reached World.file
  rw [unmoved.disk, unmoved.held]

/-- The stream knows the same file. -/
theorem Unmoved.file (unmoved : Unmoved world after) : after.file = world.file :=
  unmoved.reached none

/-- Two parts that leave the disk and the stream. -/
theorem Unmoved.trans {between : World} (first : Unmoved world between)
    (second : Unmoved between after) : Unmoved world after :=
  ⟨second.disk.trans first.disk, second.held.trans first.held,
    second.position.trans first.position⟩

/-- A call behind an unmoved stream. -/
theorem SameFile.behind {between : World} (first : Unmoved world between)
    (second : SameFile between after) : SameFile world after := by
  obtain ⟨lost, left⟩ := second
  exact ⟨lost, left.trans (first.reached lost)⟩

/-- A stream that is left alone knows the file as it was. -/
theorem Unmoved.same (unmoved : Unmoved world after) : SameFile world after :=
  .of_eq unmoved.file

/-! ## Measurements -/

/-- What a measurement leaves, by its reply. -/
structure AfterTell (world : World) (reply : OffT) (after : World) : Prop where
  unmoved : Unmoved world after
  clock : after.clock = world.clock + 1
  reply : reply = world.position ∨ reply = -1

/-- Every measurement leaves what is said of its reply. -/
theorem posix_ftell_after :
    AfterTell world (posix platform .ftell world).1 (posix platform .ftell world).2 := by
  rcases @FromPosition.posix_cases platform .ftell world with sound | ⟨fault, broken⟩
  · rw [sound]
    exact ⟨⟨rfl, rfl, rfl⟩, rfl, .inl rfl⟩
  · rw [broken]
    exact ⟨⟨rfl, rfl, rfl⟩, rfl, .inr rfl⟩

/-- A measurement on which no failure is injected tells the position. -/
theorem posix_ftell_sound (sound : platform.faults world.clock = none) :
    (posix platform .ftell world).1 = world.position := by
  unfold posix
  rw [sound]
  rfl

/-- A measurement fails exactly where a failure is injected. -/
theorem posix_ftell_failed :
    (posix platform .ftell world).1 = -1 ↔ platform.faults world.clock ≠ none := by
  unfold posix
  cases platform.faults world.clock with
  | none =>
    refine iff_of_false (fun lost => ?_) (not_not_intro rfl)
    have told : (world.position : Int) = -1 := lost
    omega
  | some fault => exact iff_of_true rfl (Option.some_ne_none _)

/-! ## Transfers -/

/-- What a read leaves, by its reply. -/
structure AfterRead (world : World) (size : Nat)
    (reply : Option { bytes : List UInt8 // bytes.length = size }) (after : World) : Prop where
  drained : Drained world after
  read : ∀ bytes, reply = some bytes → bytes.val = slice world.file world.position size ∧
    world.position + size ≤ world.file.length ∧ after.file = world.file

/-- Every read leaves what is said of its reply. -/
theorem posix_fread_after (size : Nat) :
    AfterRead world size (posix platform (.fread size) world).1
      (posix platform (.fread size) world).2 := by
  rcases @FromPosition.posix_cases platform (.fread size) world with
    sound | ⟨fault, broken⟩
  · rw [sound, unfaulted]
    split_ifs with inside
    · refine ⟨⟨rfl, none, rfl⟩, fun bytes same => ?_⟩
      rw [← Option.some.inj same]
      exact ⟨rfl, inside.2, rfl⟩
    · exact ⟨⟨rfl, none, rfl⟩, fun bytes none => absurd none.symm (Option.some_ne_none bytes)⟩
  · rw [broken]
    exact ⟨⟨rfl, fault.lost, rfl⟩,
      fun bytes none => absurd none.symm (Option.some_ne_none bytes)⟩

/-- What a write leaves, by its reply: the stream takes it, or a front part of it reaches the disk,
behind what the stream held or a part of that. -/
structure AfterWrite (world : World) (bytes : List UInt8) (reply : Bool) (after : World) : Prop where
  whole : reply = true → after.file = patch world.file world.position bytes ∧
    ((after.disk = world.disk ∧ after.held = world.held ++ [⟨world.position, bytes⟩]) ∨ after.held =
      [])
  refused : reply = false → (after.disk = world.disk ∧ after.held = world.held) ∨ after.held = []
  clock : after.clock = world.clock + 1
  part : ∃ lost count,
    after.file = patch (world.reached lost) world.position (bytes.take count)

/-- Every write leaves what is said of its reply. -/
theorem posix_fwrite_after (bytes : List UInt8) :
    AfterWrite world bytes (posix platform (.fwrite bytes) world).1
      (posix platform (.fwrite bytes) world).2 := by
  rcases @FromPosition.posix_cases platform (.fwrite bytes) world with
    sound | ⟨fault, broken⟩
  · rw [sound, unfaulted]
    split_ifs with inside
    · exact ⟨fun _ => ⟨world.hold_file bytes, world.hold_taken bytes⟩, Bool.noConfusion, rfl, none,
        bytes.length, by
          rw [List.take_length]
          exact world.hold_file bytes⟩
    · exact ⟨Bool.noConfusion, fun _ => .inl ⟨rfl, rfl⟩, rfl, none, 0, by
        rw [List.take_zero, patch_nil]
        rfl⟩
  · rw [broken]
    refine ⟨Bool.noConfusion, fun _ => .inr rfl, rfl, fault.lost, fault.taken world, ?_⟩
    exact (world.drain fault.lost).hold_file (bytes.take (fault.taken world))

/-- A write that the stream took is in the file as the stream knows it. -/
theorem AfterWrite.file {bytes : List UInt8} (wrote : AfterWrite world bytes true after) :
    after.file = patch world.file world.position bytes := (wrote.whole rfl).1

/-- A write that is taken or not does not make the disk shorter. -/
theorem AfterWrite.longer {bytes : List UInt8} {reply : Bool}
    (wrote : AfterWrite world bytes reply after) : world.disk.length ≤ after.disk.length := by
  have passed (empty : after.held = []) : world.disk.length ≤ after.disk.length := by
    obtain ⟨lost, count, part⟩ := wrote.part
    rw [← World.file_of_empty empty, part]
    exact (world.disk_le_reached lost).trans (length_le_patch _ _ _)
  cases reply with
  | true =>
    rcases (wrote.whole rfl).2 with ⟨same, -⟩ | empty
    · rw [same]
    · exact passed empty
  | false =>
    rcases wrote.refused rfl with ⟨same, -⟩ | empty
    · rw [same]
    · exact passed empty

/-- A write where the stream held nothing puts a front part of its bytes into the file. -/
theorem AfterWrite.cut {bytes : List UInt8} {reply : Bool}
    (wrote : AfterWrite world bytes reply after)
    (empty : world.held = []) :
    ∃ count, after.file = patch world.file world.position (bytes.take count) := by
  obtain ⟨lost, count, same⟩ := wrote.part
  rw [World.reached_empty empty] at same
  exact ⟨count, same⟩

/-- Whatever is lost of what the stream then holds, no more than a front part of the bytes is in the
file. -/
theorem AfterWrite.left {bytes : List UInt8} {reply : Bool}
    (wrote : AfterWrite world bytes reply after)
    (empty : world.held = []) (lost : Option Nat) :
    ∃ count, after.reached lost = patch world.file world.position (bytes.take count) := by
  obtain ⟨count, cut⟩ := wrote.cut empty
  cases reply with
  | false =>
    have nothing : after.held = [] := (wrote.refused rfl).elim (·.2.trans empty) id
    exact ⟨count, (World.reached_empty nothing lost).trans cut⟩
  | true =>
    rcases (wrote.whole rfl).2 with ⟨disk, held⟩ | through
    · rw [empty, List.nil_append] at held
      cases lost with
      | none => exact ⟨count, cut⟩
      | some arrived =>
        refine ⟨arrived, ?_⟩
        rw [World.reached, held, disk, ← World.file_of_empty empty, puts_frontWrites_one]
    · exact ⟨count, (World.reached_empty through lost).trans cut⟩

/-! ## The other calls -/

/-- A call that reads and writes nothing in the file and moves no stream. -/
def Call.Aside : Call → Prop
  | .fcntl _ _ _ => True
  | .adjacent _ => True
  | .primeHandle => True
  | .keepErrno => True
  | .note _ => True
  | _ => False

/-- A call aside leaves the disk and the stream. -/
theorem posix_unmoved {request : Call} (aside : request.Aside) :
    Unmoved world (posix platform request world).2 := by
  rcases @FromPosition.posix_cases platform request world with sound | ⟨fault, broken⟩
  · rw [sound]
    cases request <;> simp only [unfaulted] <;> (try split_ifs) <;>
      first | exact ⟨rfl, rfl, rfl⟩ | exact aside.elim
  · rw [broken]
    cases request <;> first | exact ⟨rfl, rfl, rfl⟩ | exact aside.elim

/-- A call that leaves the file. -/
def Call.Keeping : Call → Prop
  | .fopen create => create = false
  | .fwrite _ => False
  | _ => True

/-- A call that leaves the file leaves it where nothing is lost. -/
theorem posix_keeping {request : Call} (keeping : request.Keeping)
    (spared : Spared platform world request) :
    (posix platform request world).2.file = world.file := by
  rcases @FromPosition.posix_scheduled platform request world with
    sound | ⟨fault, scheduled, broken⟩
  · rw [sound]
    cases request with
    | fopen create =>
      obtain rfl : create = false := keeping
      rfl
    | fwrite bytes => exact keeping.elim
    | fseek | fread | fcntl =>
      simp only [unfaulted]
      split_ifs <;> rfl
    | _ => rfl
  · rw [broken]
    cases request with
    | fwrite bytes => exact keeping.elim
    | fclose stream | fseek | fread size =>
      have drained := spared.drain trivial scheduled
      simp only [faulted, drained]
      rfl
    | _ => rfl

/-- A program of such calls that loses nothing leaves the file. -/
theorem run_keeping_spared {α : Type} {program : Prog α} (keeping : program.Only Call.Keeping)
    (lossless : Lossless platform (log (posix platform) program world)) :
    (run (posix platform) program world).2.file = world.file := by
  induction program generalizing world with
  | ret value => rfl
  | stop reason => rfl
  | call request next ih =>
    obtain ⟨spared, later⟩ := lossless_cons.mp lossless
    exact (ih _ (keeping.2 _) later).trans (posix_keeping keeping.1 spared)

/-- Where the stream holds nothing, nothing is lost. -/
theorem spared_of_empty (empty : world.held = []) (request : Call) : Spared platform world request :=
  fun _ _ _ => .inr empty

/-- A call that leaves the file gives the stream nothing to hold. -/
theorem posix_keeping_held {request : Call} (keeping : request.Keeping) (empty : world.held = []) :
    (posix platform request world).2.held = [] := by
  rcases @FromPosition.posix_cases platform request world with sound | ⟨fault, broken⟩
  · rw [sound]
    cases request with
    | fwrite bytes => exact keeping.elim
    | fseek | fread | fcntl =>
      simp only [unfaulted]
      split_ifs <;> first | rfl | exact empty
    | _ => first | rfl | exact empty
  · rw [broken]
    cases request with
    | fwrite bytes => exact keeping.elim
    | _ => first | rfl | exact empty

/-- A program of such calls, from a stream that holds nothing: it holds nothing behind it, and
nothing is lost. -/
theorem idle_of_keeping {α : Type} {program : Prog α} (keeping : program.Only Call.Keeping)
    (empty : world.held = []) :
    Lossless platform (log (posix platform) program world) ∧
      (run (posix platform) program world).2.held = [] ∧
      (run (posix platform) program world).2.file = world.file := by
  induction program generalizing world with
  | ret value => exact ⟨lossless_nil, empty, rfl⟩
  | stop reason => exact ⟨lossless_nil, empty, rfl⟩
  | call request next ih =>
    obtain ⟨lossless, held, file⟩ := ih _ (keeping.2 _) (posix_keeping_held keeping.1 empty)
    have spared := @spared_of_empty platform world empty request
    exact ⟨lossless_cons.mpr ⟨spared, lossless⟩, held,
      Eq.trans file (posix_keeping keeping.1 spared)⟩

/-- Behind such a program nothing is lost as long as the rest loses nothing. -/
theorem lossless_bind_keeping {α β : Type} {program : Prog α} {rest : α → Prog β}
    (keeping : program.Only Call.Keeping) (empty : world.held = [])
    (second : ∀ value after, after.held = [] →
      Lossless platform (log (posix platform) (rest value) after)) :
    Lossless platform (log (posix platform) (program >>= rest) world) := by
  obtain ⟨first, idle, -⟩ := @idle_of_keeping platform world α program keeping empty
  rw [log_bind]
  refine lossless_append.mpr ⟨first, ?_⟩
  rcases ran : run (posix platform) program world with ⟨reason | value, between⟩
  · exact lossless_nil
  · rw [ran] at idle
    exact second value between idle

/-- Calls that pass nothing on lose nothing. -/
theorem lossless_of_undrained {α : Type} {program : Prog α}
    (undrained : program.Only fun request => ¬ request.Drains) :
    Lossless platform (log (posix platform) program world) :=
  fun moment among drains => absurd drains (log_only _ undrained world moment among)

/-- A note has no effect. -/
theorem posix_note (event : Event) : posix platform (.note event) world = ((), world) := by
  rcases @FromPosition.posix_cases platform (.note event) world with
    sound | ⟨fault, broken⟩
  · exact sound
  · exact broken

/-- The error number of the handle is cleared, and nothing else changes. -/
theorem posix_primeHandle :
    posix platform .primeHandle world = ((), { world with sysErrno := 0 }) := by
  rcases @FromPosition.posix_cases platform .primeHandle world with
    sound | ⟨fault, broken⟩
  · exact sound
  · exact broken

/-- The error number is kept in the handle, and nothing else changes. -/
theorem posix_keepErrno :
    posix platform .keepErrno world = ((), { world with sysErrno := world.errno }) := by
  rcases @FromPosition.posix_cases platform .keepErrno world with
    sound | ⟨fault, broken⟩
  · exact sound
  · exact broken

/-! ## Counted failures -/

/-- A call is counted exactly when its reply reports a failure. -/
theorem posix_counted (request : Call) :
    (posix platform request world).2.failures = world.failures +
      (failedCall (σ := World) ⟨world, request, (posix platform request world).1⟩).toNat := by
  have told : (world.position : Int) ≠ -1 := by omega
  unfold posix
  cases platform.faults world.clock with
  | none =>
    cases request <;> simp only [unfaulted] <;> (try split_ifs) <;> simp [failedCall, told]
  | some fault => cases request <;> simp [failedCall, faulted, unfaulted]

/-- A run whose failure counter stays has no failed call. -/
theorem calm_unfailed {α : Type} {program : Prog α}
    (calm : (run (posix platform) program world).2.failures = world.failures) :
    someFailed (log (posix platform) program world) = false := by
  induction program generalizing world with
  | ret value => rfl
  | stop reason => rfl
  | call request next ih =>
    have counted := @posix_counted platform world request
    have later := run_failures platform (next (posix platform request world).1)
      (posix platform request world).2
    have total : (run (posix platform) (next (posix platform request world).1)
      (posix platform request world).2).2.failures = world.failures := calm
    have unfailed : failedCall (σ := World) ⟨world, request, (posix platform request world).1⟩ =
        false := by
      cases failed : failedCall (σ := World) ⟨world, request, (posix platform request world).1⟩ with
      | false => rfl
      | true =>
        rw [failed, Bool.toNat_true] at counted
        omega
    rw [unfailed, Bool.toNat_false] at counted
    rw [log, someFailed_cons, unfailed, Bool.false_or]
    exact ih _ (by omega)

/-! ## One call at a time -/

section Rules

variable {β : Type} {post : Except Stop β → List (Moment Call Answer World) → World → Prop}

/-- The run of a single call. -/
theorem run_issue {request : Call} {reply : Answer request}
    (called : posix platform request world = (reply, after)) :
    run (posix platform) (issue request) world = (.ok reply, after) := by
  rw [issue, run_perform, called]

/-- A call whose reply and effect are named. -/
theorem ends_issue {request : Call} {rest : Answer request → Prog β}
    (second : Ends (posix platform) (posix platform request world).2
      (rest (posix platform request world).1) fun outcome past final =>
        post outcome (⟨world, request, (posix platform request world).1⟩ :: past) final) :
    Ends (posix platform) world (issue request >>= rest) post := second

/-- A seek, and then what follows its reply. -/
theorem ends_fseek {offset : OffT} {whence : Whence} {rest : Bool → Prog β}
    (second : ∀ reply after, AfterSeek world offset whence reply after →
      posix platform (.fseek offset whence) world = (reply, after) →
      Ends (posix platform) after (rest reply) fun outcome past final =>
        post outcome (⟨world, .fseek offset whence, reply⟩ :: past) final) :
    Ends (posix platform) world (fseek offset whence >>= rest) post :=
  ends_issue (second _ _ (posix_fseek_after offset whence) rfl)

/-- A measurement, and then what follows its reply. -/
theorem ends_ftell {rest : OffT → Prog β}
    (second : ∀ reply after, AfterTell world reply after →
      posix platform .ftell world = (reply, after) →
      Ends (posix platform) after (rest reply) fun outcome past final =>
        post outcome (⟨world, .ftell, reply⟩ :: past) final) :
    Ends (posix platform) world (ftell >>= rest) post :=
  ends_issue (second _ _ posix_ftell_after rfl)

/-- A read, and then what follows its reply. -/
theorem ends_fread {size : Nat} {rest : Option { bytes : List UInt8 // bytes.length = size } → Prog β}
    (second : ∀ reply after, AfterRead world size reply after →
      posix platform (.fread size) world = (reply, after) →
      Ends (posix platform) after (rest reply) fun outcome past final =>
        post outcome (⟨world, .fread size, reply⟩ :: past) final) :
    Ends (posix platform) world (fread size >>= rest) post :=
  ends_issue (second _ _ (posix_fread_after size) rfl)

/-- A write, and then what follows its reply. -/
theorem ends_fwrite {bytes : List UInt8} {rest : Bool → Prog β}
    (second : ∀ reply after, AfterWrite world bytes reply after →
      posix platform (.fwrite bytes) world = (reply, after) →
      Ends (posix platform) after (rest reply) fun outcome past final =>
        post outcome (⟨world, .fwrite bytes, reply⟩ :: past) final) :
    Ends (posix platform) world (fwrite bytes >>= rest) post :=
  ends_issue (second _ _ (posix_fwrite_after bytes) rfl)

/-- A call aside from the file and the stream. -/
theorem ends_aside {request : Call} {rest : Answer request → Prog β} (aside : request.Aside)
    (second : ∀ reply after, Unmoved world after → posix platform request world = (reply, after) →
      Ends (posix platform) after (rest reply) fun outcome past final =>
        post outcome (⟨world, request, reply⟩ :: past) final) :
    Ends (posix platform) world (issue request >>= rest) post :=
  ends_issue (second _ _ (posix_unmoved aside) rfl)

/-- A note, and then what follows it. -/
theorem ends_note {event : Event} {rest : Unit → Prog β}
    (second : Ends (posix platform) world (rest ()) fun outcome past final =>
      post outcome (⟨world, .note event, ()⟩ :: past) final) :
    Ends (posix platform) world (note event >>= rest) post :=
  Ends.call (posix_note event) second

/-- The clearing of the error number of the handle, and then what follows it. -/
theorem ends_primeHandle {rest : Unit → Prog β}
    (second : Ends (posix platform) { world with sysErrno := 0 } (rest ())
      fun outcome past final => post outcome (⟨world, .primeHandle, ()⟩ :: past) final) :
    Ends (posix platform) world (primeHandle >>= rest) post :=
  Ends.call posix_primeHandle second

/-- A value ends a run without a call. -/
theorem ends_ret {value : β} (holds : post (.ok value) [] world) :
    Ends (posix platform) world (.ret value) post := holds

/-- An assertion that holds is passed. -/
theorem ends_assert {fact : Bool} {rest : Unit → Prog β} (holds : fact = true)
    (second : Ends (posix platform) world (rest ()) post) :
    Ends (posix platform) world (cAssert fact >>= rest) post := by
  rw [holds]
  exact second

end Rules

end Recnodb
