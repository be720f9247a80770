import Recnodb.Events
import Recnodb.Interaction.Triples

/-!
# Triples under faults

On a platform on which any call may fail, a triple says what holds of the runs
that complete and lose nothing that the stream has taken: of the value, the file and
the events. Each rule has a branch for the failure of its call. A failed write may
leave any prefix of its bytes behind; every other failure leaves the file as it was.
-/

namespace Recnodb

open Interaction Octets Program

variable {α β : Type}

/-- What holds of every completed run from a state with this file, whatever fails, as long as
nothing is lost behind the back of the program. -/
def UnderFaults (platform : Platform) (file : List UInt8) (program : Prog α)
    (post : α → List UInt8 → List Event → Prop) : Prop :=
  Allows (posix platform) (fun world => world.file = file) program
    fun value past world => Lossless platform past → post value world.file (events past)

/-- The same with a known stream position at the start. -/
def FromPosition (platform : Platform) (file : List UInt8) (position : Nat) (program : Prog α)
    (post : α → List UInt8 → List Event → Prop) : Prop :=
  Allows (posix platform) (fun world => world.file = file ∧ world.position = position) program
    fun value past world => Lossless platform past → post value world.file (events past)

/-- The event of a call that is none. -/
theorem events_cons_silent {σ : Type} {moment : Moment Call Answer σ}
    (silent : ∀ event, moment.request ≠ .note event) (past : List (Moment Call Answer σ)) :
    events (moment :: past) = events past := by
  obtain ⟨before, request, reply⟩ := moment
  cases request with
  | note event => exact absurd rfl (silent event)
  | _ => rfl

namespace UnderFaults

variable {platform : Platform} {file : List UInt8} {post : β → List UInt8 → List Event → Prop}

/-- A value leaves the file. -/
theorem ret {value : β} (holds : post value file []) :
    UnderFaults platform file (.ret value) post := by
  rintro world rfl result after completed -
  obtain ⟨rfl, rfl⟩ := run_ret_inv _ completed
  exact holds

/-- A stop completes no run. -/
theorem stop (reason : Stop) : UnderFaults platform file (.stop reason) post :=
  Allows.stop reason _

/-- A weaker postcondition. -/
theorem mono {program : Prog α} {post post' : α → List UInt8 → List Event → Prop}
    (proved : UnderFaults platform file program post)
    (stronger : ∀ value after past, post value after past → post' value after past) :
    UnderFaults platform file program post' :=
  Allows.mono proved (fun _ same => same) fun _ _ _ established lossless =>
    stronger _ _ _ (established lossless)

/-- What two triples say of one program. -/
theorem both {program : Prog α} {post post' : α → List UInt8 → List Event → Prop}
    (one : UnderFaults platform file program post) (other : UnderFaults platform file program post') :
    UnderFaults platform file program fun value after past =>
      post value after past ∧ post' value after past :=
  fun world same value after completed lossless =>
    ⟨one world same value after completed lossless, other world same value after completed lossless⟩

/-- The sequence rule: the second part starts from the file the first one left. -/
theorem bind {program : Prog α} {rest : α → Prog β} {middle : α → List UInt8 → List Event → Prop}
    (first : UnderFaults platform file program middle)
    (second : ∀ value after past, middle value after past →
      UnderFaults platform after (rest value)
        fun result final later => post result final (past ++ later)) :
    UnderFaults platform file (program >>= rest) post := by
  refine Allows.bind first fun value past world established result after completed lossless => ?_
  obtain ⟨before, behind⟩ := lossless_append.mp lossless
  have holds := second value _ _ (established before) world rfl result after completed behind
  simpa only [events_append] using holds

/-- A program whose position is not known starts at some position. -/
theorem of_positions {program : Prog β}
    (proved : ∀ position, FromPosition platform file position program post) :
    UnderFaults platform file program post :=
  fun world same => proved world.position world ⟨same, rfl⟩

end UnderFaults

/-- How many bytes of a failed write at a position may reach the file. -/
def Platform.Cuts (platform : Platform) (position count : Nat) : Prop :=
  count = 0 ∨ ∃ time fault, platform.faults time = some fault ∧
    count = min fault.written (offMax - position)

/-- What a failing write passes on is a cut of the platform. -/
theorem Fault.taken_cuts {platform : Platform} {world : World} {fault : Fault}
    (scheduled : platform.faults world.clock = some fault) :
    platform.Cuts world.position (fault.taken world) := by
  rw [Fault.taken]
  split_ifs
  · exact .inr ⟨_, fault, scheduled, rfl⟩
  · exact .inl rfl

namespace FromPosition

variable {platform : Platform} {file : List UInt8} {position : Nat}
variable {post : β → List UInt8 → List Event → Prop}

/-- What holds from every position holds from this one. -/
theorem of_file {program : Prog β} (proved : UnderFaults platform file program post) :
    FromPosition platform file position program post :=
  fun world same => proved world same.1

/-- A weaker postcondition. -/
theorem mono {program : Prog β} {post' : β → List UInt8 → List Event → Prop}
    (proved : FromPosition platform file position program post)
    (stronger : ∀ value after past, post value after past → post' value after past) :
    FromPosition platform file position program post' :=
  Allows.mono proved (fun _ same => same) fun _ _ _ established lossless =>
    stronger _ _ _ (established lossless)

/-- The sequence rule, with the position forgotten between the parts. -/
theorem bind {program : Prog α} {rest : α → Prog β} {middle : α → List UInt8 → List Event → Prop}
    (first : FromPosition platform file position program middle)
    (second : ∀ value after past, middle value after past →
      UnderFaults platform after (rest value)
        fun result final later => post result final (past ++ later)) :
    FromPosition platform file position (program >>= rest) post := by
  refine Allows.bind first fun value past world established result after completed lossless => ?_
  obtain ⟨before, behind⟩ := lossless_append.mp lossless
  have holds := second value _ _ (established before) world rfl result after completed behind
  simpa only [events_append] using holds

/-- A call that is no event, by the file and the position it leaves. -/
theorem call {request : Call} {rest : Answer request → Prog β}
    (silent : ∀ event, request ≠ .note event)
    (second : ∀ world reply after, world.file = file → world.position = position →
      Spared platform world request → posix platform request world = (reply, after) →
      FromPosition platform after.file after.position (rest reply) post) :
    FromPosition platform file position (issue request >>= rest) post := by
  rintro world ⟨same, here⟩ result after completed lossless
  obtain ⟨spared, later⟩ := lossless_cons.mp lossless
  have holds := second world _ _ same here spared rfl _ ⟨rfl, rfl⟩ result after completed later
  change post result after.file (events (_ :: _))
  rw [events_cons_silent (by exact silent)]
  exact holds

/-- What a call does, by whether a failure is scheduled. -/
theorem posix_scheduled (request : Call) (world : World) :
    posix platform request world = unfaulted platform.memory request world ∨
      ∃ fault, platform.faults world.clock = some fault ∧
        posix platform request world = faulted platform.memory fault request world := by
  unfold posix
  cases scheduled : platform.faults world.clock with
  | none => exact .inl rfl
  | some fault => exact .inr ⟨fault, rfl, rfl⟩

/-- The same with the time of the failure forgotten. -/
theorem posix_cases (request : Call) (world : World) :
    posix platform request world = unfaulted platform.memory request world ∨
      ∃ fault, posix platform request world = faulted platform.memory fault request world :=
  (posix_scheduled request world).imp_right fun ⟨fault, _, broken⟩ => ⟨fault, broken⟩

/-- What a call does at which nothing is lost. -/
theorem posix_spared {request : Call} {world : World} (spared : Spared platform world request)
    (drains : request.Drains) :
    posix platform request world = unfaulted platform.memory request world ∨
      ∃ fault, platform.faults world.clock = some fault ∧ world.drain fault.lost = world.flush ∧
        posix platform request world = faulted platform.memory fault request world := by
  rcases posix_scheduled request world with sound | ⟨fault, scheduled, broken⟩
  · exact .inl sound
  · exact .inr ⟨fault, scheduled, spared.drain drains scheduled, broken⟩

/-- A seek finds its target, or the stream stays. -/
theorem fseek_bind {offset : OffT} {rest : Bool → Prog β}
    (found : ∀ target : Nat, offset = target → target ≤ offMax →
      FromPosition platform file target (rest true) post)
    (lost : FromPosition platform file position (rest false) post) :
    FromPosition platform file position (fseek offset .seekSet >>= rest) post := by
  refine call (fun _ => Call.noConfusion) fun world reply after same here spared outcome => ?_
  subst same here
  rcases posix_spared spared trivial with sound | ⟨fault, -, drained, broken⟩
  · rw [sound, unfaulted] at outcome
    split_ifs at outcome with inside
    · obtain ⟨rfl, rfl⟩ := Prod.mk.inj outcome
      exact found offset.toNat (Int.toNat_of_nonneg inside.1).symm (Int.toNat_le.mpr inside.2)
    · obtain ⟨rfl, rfl⟩ := Prod.mk.inj outcome
      exact lost
  · rw [broken, faulted, drained] at outcome
    obtain ⟨rfl, rfl⟩ := Prod.mk.inj outcome
    exact lost

/-- A seek from the end finds its target, or the stream stays. -/
theorem fseek_end_bind {offset : OffT} {rest : Bool → Prog β}
    (found : ∀ target : Nat, file.length + offset = target → target ≤ offMax →
      FromPosition platform file target (rest true) post)
    (lost : FromPosition platform file position (rest false) post) :
    FromPosition platform file position (fseek offset .seekEnd >>= rest) post := by
  refine call (fun _ => Call.noConfusion) fun world reply after same here spared outcome => ?_
  subst same here
  rcases posix_spared spared trivial with sound | ⟨fault, -, drained, broken⟩
  · rw [sound, unfaulted] at outcome
    split_ifs at outcome with inside
    · obtain ⟨rfl, rfl⟩ := Prod.mk.inj outcome
      exact found _ (Int.toNat_of_nonneg inside.1).symm (Int.toNat_le.mpr inside.2)
    · obtain ⟨rfl, rfl⟩ := Prod.mk.inj outcome
      exact lost
  · rw [broken, faulted, drained] at outcome
    obtain ⟨rfl, rfl⟩ := Prod.mk.inj outcome
    exact lost

/-- A measurement tells the position, or fails. -/
theorem ftell_bind {rest : OffT → Prog β}
    (told : FromPosition platform file position (rest position) post)
    (lost : FromPosition platform file position (rest (-1)) post) :
    FromPosition platform file position (ftell >>= rest) post := by
  refine call (fun _ => Call.noConfusion) fun world reply after same here spared outcome => ?_
  subst same here
  rcases posix_cases .ftell world with sound | ⟨fault, broken⟩
  · obtain ⟨rfl, rfl⟩ := Prod.mk.inj (sound.symm.trans outcome)
    exact told
  · obtain ⟨rfl, rfl⟩ := Prod.mk.inj (broken.symm.trans outcome)
    exact lost

/-- A position that is told in order to go back to it later. -/
theorem ftell_saved {rest : OffT → Prog β}
    (second : ∀ saved, FromPosition platform file position (rest saved) post) :
    FromPosition platform file position (ftell >>= rest) post :=
  ftell_bind (second position) (second (-1))

/-- A read delivers the range at the position, or fails. -/
theorem fread_bind {size : Nat}
    {rest : Option { bytes : List UInt8 // bytes.length = size } → Prog β}
    (read : ∀ inside : position + size ≤ file.length, 0 < size →
      FromPosition platform file (position + size)
        (rest (some ⟨slice file position size, slice_length_inside inside⟩)) post)
    (lost : UnderFaults platform file (rest none) post) :
    FromPosition platform file position (fread size >>= rest) post := by
  refine call (fun _ => Call.noConfusion) fun world reply after same here spared outcome => ?_
  subst same here
  rcases posix_spared spared trivial with sound | ⟨fault, -, drained, broken⟩
  · rw [sound, unfaulted] at outcome
    split_ifs at outcome with inside
    · obtain ⟨rfl, rfl⟩ := Prod.mk.inj outcome
      exact read inside.2 inside.1
    · obtain ⟨rfl, rfl⟩ := Prod.mk.inj outcome
      exact of_file lost
  · rw [broken, faulted, drained] at outcome
    obtain ⟨rfl, rfl⟩ := Prod.mk.inj outcome
    exact of_file lost

/-- A write, by how much of it reaches the file where it fails. -/
theorem fwrite_cut_bind {bytes : List UInt8} {rest : Bool → Prog β}
    (wrote : position + bytes.length ≤ offMax →
      FromPosition platform (patch file position bytes) (position + bytes.length) (rest true) post)
    (lost : ∀ count, platform.Cuts position count →
      UnderFaults platform (patch file position (bytes.take count)) (rest false) post) :
    FromPosition platform file position (fwrite bytes >>= rest) post := by
  refine call (fun _ => Call.noConfusion) fun world reply after same here spared outcome => ?_
  subst same here
  rcases posix_spared spared trivial with sound | ⟨fault, scheduled, drained, broken⟩
  · rw [sound, unfaulted] at outcome
    split_ifs at outcome with inside
    · obtain ⟨rfl, rfl⟩ := Prod.mk.inj outcome
      have held := wrote inside.2
      rw [← World.hold_file] at held
      exact held
    · obtain ⟨rfl, rfl⟩ := Prod.mk.inj outcome
      have none := lost 0 (.inl rfl)
      rw [List.take_zero, patch_nil] at none
      exact of_file none
  · rw [broken, faulted, drained] at outcome
    obtain ⟨rfl, rfl⟩ := Prod.mk.inj outcome
    have part := lost (fault.taken world) (fault.taken_cuts scheduled)
    have kept : (world.flush.hold (bytes.take (fault.taken world))).file =
        patch world.file world.position (bytes.take (fault.taken world)) := World.hold_file _ _
    rw [← kept] at part
    exact of_file part

/-- A write is taken as a whole, or a front part of it is in the file. -/
theorem fwrite_bind {bytes : List UInt8} {rest : Bool → Prog β}
    (wrote : position + bytes.length ≤ offMax →
      FromPosition platform (patch file position bytes) (position + bytes.length) (rest true) post)
    (lost : ∀ count, UnderFaults platform (patch file position (bytes.take count)) (rest false)
      post) :
    FromPosition platform file position (fwrite bytes >>= rest) post :=
  fwrite_cut_bind wrote fun count _ => lost count

/-- A lock request changes nothing in the file. -/
theorem fcntl_bind {type : LockType} {start len : OffT} {rest : Option Int → Prog β}
    (second : ∀ reply, FromPosition platform file position (rest reply) post) :
    FromPosition platform file position (fcntl type start len >>= rest) post := by
  refine call (fun _ => Call.noConfusion) fun world reply after same here spared outcome => ?_
  subst same here
  rcases posix_cases (.fcntl type start len) world with sound | ⟨fault, broken⟩
  · rw [sound, unfaulted] at outcome
    split_ifs at outcome with inside
    · obtain ⟨rfl, rfl⟩ := Prod.mk.inj outcome
      exact second none
    · obtain ⟨rfl, rfl⟩ := Prod.mk.inj outcome
      exact second (some einval)
  · obtain ⟨rfl, rfl⟩ := Prod.mk.inj (broken.symm.trans outcome)
    exact second (some fault.errno)

/-- The memory next to a buffer at some time. -/
theorem adjacent_bind {count : Nat} {rest : { bytes : List UInt8 // bytes.length = count } → Prog β}
    (second : ∀ time, FromPosition platform file position
      (rest (adjacentBytes (platform.memory time) count)) post) :
    FromPosition platform file position (adjacent count >>= rest) post := by
  refine call (fun _ => Call.noConfusion) fun world reply after same here spared outcome => ?_
  subst same here
  rcases posix_cases (.adjacent count) world with sound | ⟨fault, broken⟩
  · obtain ⟨rfl, rfl⟩ := Prod.mk.inj (sound.symm.trans outcome)
    exact second _
  · obtain ⟨rfl, rfl⟩ := Prod.mk.inj (broken.symm.trans outcome)
    exact second _

/-- The error number of the handle is no part of the file. -/
theorem primeHandle_bind {rest : Unit → Prog β}
    (second : FromPosition platform file position (rest ()) post) :
    FromPosition platform file position (primeHandle >>= rest) post := by
  refine call (fun _ => Call.noConfusion) fun world reply after same here spared outcome => ?_
  subst same here
  rcases posix_cases .primeHandle world with sound | ⟨fault, broken⟩
  · obtain ⟨rfl, rfl⟩ := Prod.mk.inj (sound.symm.trans outcome)
    exact second
  · obtain ⟨rfl, rfl⟩ := Prod.mk.inj (broken.symm.trans outcome)
    exact second

/-- The error number of the handle is no part of the file. -/
theorem keepErrno_bind {rest : Unit → Prog β}
    (second : FromPosition platform file position (rest ()) post) :
    FromPosition platform file position (keepErrno >>= rest) post := by
  refine call (fun _ => Call.noConfusion) fun world reply after same here spared outcome => ?_
  subst same here
  rcases posix_cases .keepErrno world with sound | ⟨fault, broken⟩
  · obtain ⟨rfl, rfl⟩ := Prod.mk.inj (sound.symm.trans outcome)
    exact second
  · obtain ⟨rfl, rfl⟩ := Prod.mk.inj (broken.symm.trans outcome)
    exact second

end FromPosition

namespace UnderFaults

variable {platform : Platform} {file : List UInt8} {post : β → List UInt8 → List Event → Prop}

/-- The same without a position. -/
theorem primeHandle_bind {rest : Unit → Prog β}
    (second : UnderFaults platform file (rest ()) post) :
    UnderFaults platform file (primeHandle >>= rest) post :=
  of_positions fun _ => FromPosition.primeHandle_bind (FromPosition.of_file second)

/-- The same without a position. -/
theorem keepErrno_bind {rest : Unit → Prog β} (second : UnderFaults platform file (rest ()) post) :
    UnderFaults platform file (keepErrno >>= rest) post :=
  of_positions fun _ => FromPosition.keepErrno_bind (FromPosition.of_file second)

/-- An error whose number is kept leaves the file. -/
theorem kept_error {result : β} (holds : post result file []) :
    UnderFaults platform file (keepErrno >>= fun _ => pure result) post :=
  keepErrno_bind (ret holds)

/-- The same without a position. -/
theorem fcntl_bind {type : LockType} {start len : OffT} {rest : Option Int → Prog β}
    (second : ∀ reply, UnderFaults platform file (rest reply) post) :
    UnderFaults platform file (fcntl type start len >>= rest) post :=
  of_positions fun _ => FromPosition.fcntl_bind fun reply => FromPosition.of_file (second reply)

/-- An opened stream stands at the start of the file, which a creating one empties. -/
theorem fopen_bind {create : Bool} {rest : Option Nat → Prog β}
    (opened : ∀ stream, FromPosition platform (if create then [] else file) 0 (rest (some stream))
      post)
    (failed : UnderFaults platform file (rest none) post) :
    UnderFaults platform file (fopen create >>= rest) post := by
  refine of_positions fun position =>
    FromPosition.call (fun _ => Call.noConfusion) fun world reply after same here spared outcome => ?_
  subst same here
  rcases FromPosition.posix_cases (.fopen create) world with sound | ⟨fault, broken⟩
  · obtain ⟨rfl, rfl⟩ := Prod.mk.inj (sound.symm.trans outcome)
    exact opened _
  · obtain ⟨rfl, rfl⟩ := Prod.mk.inj (broken.symm.trans outcome)
    exact FromPosition.of_file failed

/-- A closing passes on what is held, and leaves the file. -/
theorem fclose_bind {stream : Nat} {rest : Bool → Prog β}
    (second : ∀ closed, UnderFaults platform file (rest closed) post) :
    UnderFaults platform file (fclose stream >>= rest) post := by
  refine of_positions fun position =>
    FromPosition.call (fun _ => Call.noConfusion) fun world reply after same here spared outcome => ?_
  subst same here
  rcases FromPosition.posix_spared spared trivial with sound | ⟨fault, -, drained, broken⟩
  · obtain ⟨rfl, rfl⟩ := Prod.mk.inj (sound.symm.trans outcome)
    exact FromPosition.of_file (second true)
  · rw [broken, faulted, drained] at outcome
    obtain ⟨rfl, rfl⟩ := Prod.mk.inj outcome
    exact FromPosition.of_file (second false)

/-- A seek whose result is not looked at. -/
theorem fseek_bind {offset : OffT} {whence : Whence} {rest : Bool → Prog β}
    (second : ∀ found, UnderFaults platform file (rest found) post) :
    UnderFaults platform file (fseek offset whence >>= rest) post := by
  refine of_positions fun position => ?_
  cases whence with
  | seekSet =>
    exact FromPosition.fseek_bind (fun _ _ _ => FromPosition.of_file (second true))
      (FromPosition.of_file (second false))
  | seekEnd =>
    exact FromPosition.fseek_end_bind (fun _ _ _ => FromPosition.of_file (second true))
      (FromPosition.of_file (second false))

/-- A note is one event more. -/
theorem note_bind {event : Event} {rest : Unit → Prog β}
    (second : UnderFaults platform file (rest ())
      fun result after past => post result after (event :: past)) :
    UnderFaults platform file (note event >>= rest) post := by
  intro world same result after completed lossless
  have quiet : (posix platform (.note event) world).2.file = file := by
    rcases FromPosition.posix_cases (.note event) world with sound | ⟨fault, broken⟩
    · rw [sound]
      exact same
    · rw [broken]
      exact same
  exact second (posix platform (.note event) world).2 quiet result after completed
    (lossless_cons.mp lossless).2

/-- What follows an assertion may use it. -/
theorem assert_bind {fact : Bool} {rest : Unit → Prog β}
    (second : fact = true → UnderFaults platform file (rest ()) post) :
    UnderFaults platform file (cAssert fact >>= rest) post := by
  cases fact with
  | true => exact second rfl
  | false => exact stop _

/-- A read of a range: its bytes, or a failure. -/
theorem seekRead_bind {offset : OffT} {size : Nat}
    {rest : Option { bytes : List UInt8 // bytes.length = size } → Prog β}
    (read : ∀ (start : Nat) (inside : start + size ≤ file.length), offset = start →
      UnderFaults platform file
        (rest (some ⟨slice file start size, slice_length_inside inside⟩)) post)
    (lost : UnderFaults platform file (rest none) post) :
    UnderFaults platform file (seekRead offset size >>= rest) post := by
  refine of_positions fun position => ?_
  rw [seekRead, bind_assoc]
  refine FromPosition.fseek_bind (fun target same bound => ?_) (FromPosition.of_file lost)
  exact FromPosition.fread_bind (fun inside _ => FromPosition.of_file (read target inside same)) lost

/-- A write of a range: all of it, or any part of it and a failure. -/
theorem seekWrite_bind {offset : OffT} {bytes : List UInt8} {rest : Bool → Prog β}
    (wrote : ∀ start : Nat, offset = start → start + bytes.length ≤ offMax →
      UnderFaults platform (patch file start bytes) (rest true) post)
    (lost : ∀ (start : Nat) (count : Nat), offset = start →
      UnderFaults platform (patch file start (bytes.take count)) (rest false) post)
    (unsought : UnderFaults platform file (rest false) post) :
    UnderFaults platform file (seekWrite offset bytes >>= rest) post := by
  refine of_positions fun position => ?_
  rw [seekWrite, bind_assoc]
  refine FromPosition.fseek_bind (fun target same bound => ?_) (FromPosition.of_file unsought)
  exact FromPosition.fwrite_bind (fun inside => FromPosition.of_file (wrote target same inside))
    fun count => lost target count same

/-- The same, by how much of the write reaches the file where it fails. -/
theorem seekWrite_cut_bind {offset : OffT} {bytes : List UInt8} {rest : Bool → Prog β}
    (wrote : ∀ start : Nat, offset = start → start + bytes.length ≤ offMax →
      UnderFaults platform (patch file start bytes) (rest true) post)
    (lost : ∀ (start : Nat) (count : Nat), offset = start → platform.Cuts start count →
      UnderFaults platform (patch file start (bytes.take count)) (rest false) post)
    (unsought : UnderFaults platform file (rest false) post) :
    UnderFaults platform file (seekWrite offset bytes >>= rest) post := by
  refine of_positions fun position => ?_
  rw [seekWrite, bind_assoc]
  refine FromPosition.fseek_bind (fun target same bound => ?_) (FromPosition.of_file unsought)
  exact FromPosition.fwrite_cut_bind
    (fun inside => FromPosition.of_file (wrote target same inside))
    fun count cut => lost target count same cut

end UnderFaults

end Recnodb
