import Recnodb.ChainVisits
import Recnodb.SteadyChains

/-!
# Walks without a lock

A walk takes no lock, so other processes may append and link blocks between any two of its
calls. If they do so under a lock, every single call lets the chain grow only, and a walk that
answers success has shown its viewer the chain as it stood at one moment of the walk: when it
read the last header that it showed.
-/

namespace Recnodb

open Interaction Octets Program Extents

/-! ## What a walk has shown -/

section Shown

variable {file before after : List UInt8} {here : Nat} {views : List View}

/-- The view of a block. -/
def viewAt (file : List UInt8) (more : Bool) (block : Nat) : View :=
  ⟨slice file block sizeofHeadFile, block, more⟩

/-- A walk stands in front of a block of the chain and has shown the blocks in front of it. -/
def Arrived (file : List UInt8) (here : Nat) (views : List View) : Prop :=
  ∃ front rest, ChainAt file 0 (front ++ here :: rest) ∧ views = front.map (viewAt file true)

/-- The views are those of the chain of the file, up to the first one at which the viewer stops. -/
def ShowsChain (file : List UInt8) (views : List View) : Prop :=
  ∃ blocks, ChainAt file 0 blocks ∧ Shows file blocks views

/-- Where a walk stands, it stands when the chain has grown. -/
theorem Arrived.grows (arrived : Arrived before here views) (grows : ChainGrows before after) :
    Arrived after here views := by
  obtain ⟨front, rest, chain, rfl⟩ := arrived
  obtain ⟨added, chain', kept⟩ := grows _ chain
  refine ⟨front, rest ++ added, by simpa using chain', ?_⟩
  refine List.map_congr_left fun block among => ?_
  have early : block ∈ (front ++ here :: rest).dropLast := by
    rw [List.dropLast_append_of_ne_nil (List.cons_ne_nil here rest)]
    exact List.mem_append_left _ among
  rw [viewAt, viewAt, kept block early]

/-- Blocks at which the viewer went on are shown in front of the others. -/
theorem shows_behind {rest : List Nat} {later : List View} (shows : Shows file rest later)
    (front : List Nat) : Shows file (front ++ rest) (front.map (viewAt file true) ++ later) := by
  induction front with
  | nil => exact shows
  | cons block front ih => exact ⟨true, _, rfl, ih⟩

/-- The viewer stops. -/
theorem Arrived.stops (arrived : Arrived file here views) :
    ShowsChain file (views ++ [viewAt file false here]) := by
  obtain ⟨front, rest, chain, rfl⟩ := arrived
  have last : Shows file (here :: rest) [viewAt file false here] := ⟨false, [], rfl, rfl⟩
  exact ⟨_, chain, shows_behind last front⟩

/-- The chain ends. -/
theorem Arrived.ends (arrived : Arrived file here views)
    (childless : (headAt file here).nextBlock.offset = 0) :
    ShowsChain file (views ++ [viewAt file true here]) := by
  obtain ⟨front, rest, chain, rfl⟩ := arrived
  cases rest with
  | nil =>
    have last : Shows file [here] [viewAt file true here] := ⟨true, [], rfl, rfl⟩
    exact ⟨_, chain, shows_behind last front⟩
  | cons next rest =>
    obtain ⟨nonzero, -, link⟩ := chain.chain.at_inner
    rw [link] at childless
    exact absurd (Int.natCast_eq_zero.mp childless) nonzero

/-- The walk goes on to the child. -/
theorem Arrived.goes (arrived : Arrived file here views)
    (child : (headAt file here).nextBlock.offset ≠ 0) :
    ∃ next : Nat, (headAt file here).nextBlock.offset = next ∧
      Arrived file next (views ++ [viewAt file true here]) := by
  obtain ⟨front, rest, chain, rfl⟩ := arrived
  cases rest with
  | nil => exact absurd chain.chain.at_last.2 child
  | cons next rest =>
    refine ⟨next, chain.chain.at_inner.2.2, front ++ [here], rest, by simpa using chain, ?_⟩
    rw [List.map_append, List.map_singleton]

end Shown

/-! ## The discipline of a walk -/

section Watching

variable {ι : Type} [DecidableEq ι] {α β κ : Type}

/-- The files in front of the calls that a process made since it last delivered a value, behind one
more of its deeds. -/
def remember (seen : List (List UInt8)) : Deed Call Answer α (Shared ι) → List (List UInt8)
  | .call moment => seen ++ [moment.before.file]
  | .deliver _ => []

/-- The file in front of each call that a process made since it last delivered a value. -/
def filesSince (process : ι) (past : List (Act ι Call Answer α (Shared ι))) : List (List UInt8) :=
  past.foldl (fun seen act => if act.thread = process then remember seen act.deed else seen) []

/-- A process relies on its stream and on a chain that only grows. -/
def watching (machine : ι → Machine) (α : Type) (process : ι) :
    Discipline Call Answer α (Shared ι) (List (List UInt8)) where
  rely before now := now.processes process = before.processes process ∧
    ChainGrows before.file now.file
  fine _ moment := AnsweredFromFile machine process moment ∧
    ChainGrows moment.before.file (killablePosix machine process moment.request moment.before).2.file
  allowed _ moment after := (∀ other, other ≠ process →
    after.processes other = moment.before.processes other) ∧ ChainGrows moment.before.file after.file
  advance := remember

/-- What a process has seen is the files since its last call. -/
theorem phaseOf_watching {machine : ι → Machine} {process : ι}
    {past : List (Act ι Call Answer α (Shared ι))} :
    phaseOf (watching machine α) [] process past = filesSince process past := rfl

variable {machine : ι → Machine} {process : ι} {seen : List (List UInt8)} {shared : Shared ι}
variable {file : List UInt8}

/-- The rule for one call. -/
theorem watch_call {request : Call} {rest : Answer request → Prog β}
    {post : β → List (List UInt8) → Shared ι → Prop}
    (each : ∀ now : Shared ι, now.processes process = shared.processes process →
      ChainGrows shared.file now.file →
      AnsweredFromFile machine process ⟨now, request, (killablePosix machine process request now).1⟩ →
      ChainGrows now.file (killablePosix machine process request now).2.file →
      Keeps (killablePosix machine process) (watching machine α process)
        (rest (killablePosix machine process request now).1) (seen ++ [now.file])
        (killablePosix machine process request now).2 post) :
    Keeps (killablePosix machine process) (watching machine α process)
      (issue request >>= rest) seen shared
      post := by
  refine Keeps.call fun now relied fine =>
    ⟨⟨fun _ different => killablePosix_other different, fine.2⟩, ?_⟩
  exact each now relied.1 relied.2 fine.1 fine.2

/-- Whatever a process does, the chain of an earlier file grows. -/
theorem watch_any {program : Prog β} (grows : ChainGrows file shared.file) :
    Keeps (killablePosix machine process) (watching machine α process) program seen shared
      fun _ later after => seen <+: later ∧ ChainGrows file after.file := by
  induction program generalizing seen shared with
  | ret value => exact ⟨List.prefix_rfl, grows⟩
  | stop reason => trivial
  | call request next ih =>
    refine watch_call fun now _ grown _ grows' => ?_
    refine (ih _ ((grows.trans grown).trans grows')).mono ?_
    rintro value later after ⟨longer, still⟩
    exact ⟨(List.prefix_append _ _).trans longer, still⟩

/-- Where a process is settled, it stays so while it waits. -/
theorem Shared.Settled.waits {now : Shared ι} {request : Call} (settled : shared.Settled process)
    (relied : now.processes process = shared.processes process) (waiting : request.Waiting) :
    now.Settled process ∧ (killablePosix machine process request now).2.file = now.file ∧
      (killablePosix machine process request now).2.Settled process := by
  have here : now.Settled process := by
    rw [Shared.Settled, relied]
    exact settled
  refine ⟨here, ?_⟩
  cases request with
  | fclose stream => exact waiting.elim
  | fcntl type start len => exact waiting.elim
  | fwrite bytes => exact waiting.elim
  | _ => exact sharedPosix_keeping waiting here

/-- The rule for a program that waits. -/
theorem watch_waiting {program : Prog β} (waiting : program.Only Call.Waiting)
    (settled : shared.Settled process) (grows : ChainGrows file shared.file) :
    Keeps (killablePosix machine process) (watching machine α process) program seen shared
      fun _ later after => seen <+: later ∧ ChainGrows file after.file ∧ after.Settled process := by
  induction program generalizing seen shared with
  | ret value => exact ⟨List.prefix_rfl, grows, settled⟩
  | stop reason => trivial
  | call request next ih =>
    refine watch_call fun now same grown _ grows' => ?_
    obtain ⟨-, -, still⟩ :=
      @Shared.Settled.waits ι _ machine process shared now request settled same waiting.1
    refine (ih _ (waiting.2 _) still ((grows.trans grown).trans grows')).mono ?_
    rintro value later after ⟨longer, rest⟩
    exact ⟨(List.prefix_append _ _).trans longer, rest⟩

/-- The rule for a read of a range: it delivers what the file has at a moment that is remembered. -/
theorem watch_seekRead {offset : Nat} {size : Nat}
    {rest : Option { bytes : List UInt8 // bytes.length = size } → Prog β}
    {post : β → List (List UInt8) → Shared ι → Prop} (settled : shared.Settled process)
    (grows : ChainGrows file shared.file)
    (read : ∀ (now : Shared ι) (later : List (List UInt8)) bytes, ChainGrows file now.file →
      now.Settled process → now.file ∈ later → bytes.val = slice now.file offset size →
      Keeps (killablePosix machine process) (watching machine α process)
        (rest (some bytes)) later now post)
    (lost : ∀ (now : Shared ι) (later : List (List UInt8)), ChainGrows file now.file →
      Keeps (killablePosix machine process) (watching machine α process) (rest none) later now post) :
    Keeps (killablePosix machine process) (watching machine α process) (seekRead offset size >>= rest)
      seen shared post := by
  rw [seekRead, bind_assoc]
  refine watch_call fun now same grown _ sought => ?_
  have seeks := @sharedPosix_onFile ι _ machine process (.fseek offset .seekSet) now trivial
  obtain ⟨-, -, settled⟩ :=
    @Shared.Settled.waits ι _ machine process shared now (.fseek offset .seekSet) settled same trivial
  have grows := (grows.trans grown).trans sought
  cases reply : (killablePosix machine process (.fseek offset .seekSet) now).1 with
  | false => exact lost _ _ grows
  | true =>
    have found := (@posix_fseek_after (machine process).platform
      (now.view process) offset .seekSet).found
    rw [← seeks] at found
    have place : (((killablePosix machine process (.fseek offset .seekSet) now).2.view
      process).position :
      OffT) = (offset : OffT) := found reply
    refine watch_call fun next still grown' answered grows' => ?_
    obtain ⟨here, kept, settled⟩ :=
      @Shared.Settled.waits ι _ machine process _ next (.fread size) settled still trivial
    have position : (next.view process).position = offset := by
      rw [Shared.view, still]
      exact Int.natCast_inj.mp place
    have current := (grows.trans grown').trans grows'
    cases got : (killablePosix machine process (.fread size) next).1 with
    | none => exact lost _ _ current
    | some bytes =>
      rw [AnsweredFromFile, got] at answered
      have shown := ((posix_fread_after size).read bytes answered.symm).1
      rw [position, here.file] at shown
      refine read _ _ bytes current settled ?_ ?_
      · rw [kept]
        exact List.mem_append_right _ (List.mem_singleton_self _)
      · rw [kept]
        exact shown

/-- A viewer that takes no lock, changes no file, and leaves the link in the header it was given if
it asks to go on. -/
structure Attentive (viewer : BlockWalkView κ) : Prop where
  waiting : ∀ ib offset closure, (viewer ib offset closure).Only Call.Waiting
  answers : ∀ ib offset closure, (viewer ib offset closure).Answers fun result => result.1 = true →
    (InfoBlock.ofBytes result.2.1).nextBlock.offset = (InfoBlock.ofBytes ib).nextBlock.offset

variable {viewer : BlockWalkView κ}

/-- A walk that goes on from where it stands shows the chain as it stood at a remembered moment, if
it answers success, by induction on the rounds. -/
theorem watch_walk (attentive : Attentive viewer) (fuel : Nat) {here : Nat} {closure : κ}
    {views : List View} (settled : shared.Settled process)
    (arrived : Arrived shared.file here views) :
    Keeps (killablePosix machine process) (watching machine α process)
      (chainsWalk fuel here (recorded viewer) (closure, views)) seen shared
      fun result later after => ChainGrows shared.file after.file ∧
        (result.1 = .success → ∃ file ∈ later, ShowsChain file result.2.2) := by
  have lost {first : List UInt8} {closure : κ × List View} (now : Shared ι)
    (later : List (List UInt8))
      (grows : ChainGrows first now.file) : Keeps (killablePosix machine process)
        (watching machine α process)
        (keepErrno >>= fun _ => pure (.systemError, closure) : Prog (RndError × κ × List View))
          later now
        fun result later after => ChainGrows first after.file ∧
          (result.1 = .success → ∃ file ∈ later, ShowsChain file result.2.2) :=
    Keeps.bind (watch_any grows) fun _ _ _ left => ⟨left.2, RndError.noConfusion⟩
  induction fuel generalizing here closure views seen shared with
  | zero => exact watch_seekRead settled (ChainGrows.refl _) (fun _ _ _ _ _ _ _ => trivial) lost
  | succ fuel ih =>
    rw [chainsWalk_succ]
    refine watch_seekRead settled (ChainGrows.refl _)
      (fun now later bytes grows settled remembered shown => ?_) lost
    have reached := arrived.grows grows
    dsimp only
    rw [shown, viewBlock, recorded, bind_assoc]
    refine Keeps.bind ((watch_waiting (attentive.waiting _ _ _) settled
      (ChainGrows.refl now.file)).answers (attentive.answers _ _ _)) ?_
    rintro ⟨more, left, closure⟩ latest final ⟨unlinked, longer, grown, settled⟩
    have moment : now.file ∈ latest := longer.subset remembered
    rw [pure_bind]
    cases more with
    | false => exact ⟨grows.trans grown, fun _ => ⟨_, moment, reached.stops⟩⟩
    | true =>
      dsimp only
      rw [if_pos rfl, unlinked rfl, ofBytes_shown]
      by_cases childless : (headAt now.file here).nextBlock.offset = 0
      · rw [if_pos childless]
        exact ⟨grows.trans grown, fun _ => ⟨_, moment, reached.ends childless⟩⟩
      · rw [if_neg childless]
        obtain ⟨next, link, onward⟩ := reached.goes childless
        rw [link]
        refine (ih settled (onward.grows grown)).mono fun result later after walked => ⟨?_, walked.2⟩
        exact (grows.trans grown).trans walked.1

omit [DecidableEq ι] in
/-- A walk with such a viewer takes no lock and changes no file. -/
theorem waiting_walk (attentive : Attentive viewer) (fuel : Nat) (here : OffT)
    (closure : κ × List View) :
    (chainsWalk fuel here (recorded viewer) closure).Only Call.Waiting := by
  have read {place : OffT} : (seekRead place sizeofHeadFile).Only Call.Waiting := by
    refine only_bind (only_perform trivial) fun found => ?_
    cases found with
    | false => trivial
    | true => exact only_perform trivial
  have lost {γ : Type} {result : γ} :
    (keepErrno >>= fun _ => pure result : Prog γ).Only Call.Waiting :=
    only_bind (only_perform trivial) fun _ => trivial
  refine only_bind read fun bytes => ?_
  cases bytes with
  | none => exact lost
  | some bytes =>
    refine only_iterate (fun round => ?_) fuel _
    obtain ⟨curblock, offBlock, closure⟩ := round
    refine only_bind (only_bind (attentive.waiting _ _ _) fun _ => trivial) fun shown => ?_
    obtain ⟨more, left, closure⟩ := shown
    dsimp only
    split
    · split
      · trivial
      · refine only_bind read fun bytes => ?_
        cases bytes with
        | none => exact lost
        | some bytes => trivial
    · trivial

end Watching

/-! ## Processes that walk and processes that add blocks -/

/-- A walk along the chain of the first block. -/
structure Look (κ : Type) where
  fuel : Nat
  viewer : BlockWalkView κ
  closure : κ
  attentive : Attentive viewer

/-- What a turn of a process came to: what its walk returned and showed, or what became of the call
that was to add a block. -/
inductive Outcome (κ : Type) where
  | walked (number : Nat) (rval : RndError) (closure : κ) (views : List View)
  | added (parted : Parted)

/-- The number of a finished turn. -/
def Outcome.number {κ : Type} : Outcome κ → Nat
  | .walked number _ _ _ => number
  | .added parted => parted.number

section Turns

variable {ι : Type} [DecidableEq ι] {κ : Type} {chunkSize recSize : UInt32}
variable (machine : ι → Machine) (growers : ι → Nat → Grower chunkSize) (bhandle : BlockLoc)
variable (looks : ι → Nat → Option (Look κ))

/-- In a turn a process walks without a lock, if it has a walk to make, and adds a block otherwise. -/
def turn (process : ι) (number : Nat) : Prog (Outcome κ) :=
  match looks process number with
  | some look => do
    let (rval, closure, views) ← chainsWalk look.fuel (0 : Nat) (recorded look.viewer)
      (look.closure, [])
    pure (.walked number rval closure views)
  | none => do
    let parted ← (growErrands growers bhandle process number).life
      (growLifetimes growers process number)
      number
    pure (.added parted)

/-- The processes, each in front of its first turn. -/
def turnPool (shared : Shared ι) : Pool ι Call Answer Stop (Outcome κ) (Shared ι) :=
  ⟨fun process => turn growers bhandle looks process 0, shared⟩

/-- The next turn of a process. -/
def nextTurn (process : ι) (value : Outcome κ) : Prog (Outcome κ) :=
  turn growers bhandle looks process (value.number + 1)

/-- Where a process stands behind a turn. -/
def Rested (process : ι) : Outcome κ → Standing World → Shared ι → Prop
  | .walked number _ _ _, standing, shared =>
    standing.number = number ∧ shared.Settled process ∧ ∀ entry, standing.stage ≠ .inside entry
  | .added parted, standing, shared =>
    Departed machine (growErrands growers bhandle) process parted standing shared

variable {machine growers bhandle looks} {process : ι} {shared : Shared ι}

/-- A turn keeps the discipline of the monitor. -/
theorem keeps_turn (positive : 0 < (areaOf bhandle).size) (settled : shared.Settled process)
    (number : Nat) :
    Keeps (killablePosix machine process)
      ((killableMonitor machine bhandle (growErrands growers bhandle)).discipline (Outcome κ) process)
      (turn growers bhandle looks process number) ⟨number, .outside⟩ shared
      (Rested machine growers bhandle process) := by
  unfold turn
  cases looks process number with
  | some look =>
    refine Keeps.bind (Monitor.keeps_quiet (killableMonitor_lawful positive)
      (unmarked_waiting (waiting_walk look.attentive _ _ _)) Stage.outside_away settled) ?_
    rintro result _ after ⟨rfl, still⟩
    exact ⟨rfl, still, Stage.outside_away⟩
  | none =>
    refine Keeps.bind (keeps_life positive settled _) ?_
    intro parted standing after departed
    exact departed

omit [DecidableEq ι] in
/-- Behind a turn a process stands outside, settled. -/
theorem Rested.away {standing : Standing World} {value : Outcome κ}
    (rested : Rested machine growers bhandle process value standing shared) :
    standing.number = value.number ∧ shared.Settled process ∧
      ∀ entry, standing.stage ≠ .inside entry := by
  cases value with
  | walked number rval closure views => exact rested
  | added parted => exact ⟨Departed.number rested, Departed.settled rested, Departed.away rested⟩

/-- The calls are answered from the file. -/
def AnsweredNow (machine : ι → Machine) (act : Act ι Call Answer (Outcome κ) (Shared ι)) : Prop :=
  match act.deed with
  | .call moment => AnsweredFromFile machine act.thread moment
  | .deliver _ => True

instance (act : Act ι Call Answer (Outcome κ) (Shared ι)) : Decidable (AnsweredNow machine act) :=
  match act with
  | ⟨process, .call moment⟩ => inferInstanceAs (Decidable (AnsweredFromFile machine process moment))
  | ⟨_, .deliver _⟩ => isTrue trivial

variable {first : Contents} {past : List (Act ι Call Answer (Outcome κ) (Shared ι))}
variable {pool : Pool ι Call Answer Stop (Outcome κ) (Shared ι)}

/-- The turns of all processes keep the monitor together. -/
theorem together_turns (positive : 0 < (areaOf bhandle).size) :
    Together (killablePosix machine) (nextTurn growers bhandle looks)
      ((killableMonitor machine bhandle (growErrands growers bhandle)).discipline (Outcome κ))
      (Rested machine growers bhandle) := by
  refine Monitor.together (killableMonitor machine bhandle (growErrands growers bhandle)) ?_
  intro process value standing _ rested
  obtain ⟨number, settled, -⟩ := rested.away
  rw [number]
  exact keeps_turn positive settled _

/-- What the monitor assumes of the calls of a body holds of all calls. -/
theorem fine_answered (answered : ∀ act ∈ past, AnsweredNow machine act) :
    AllFine ((killableMonitor machine bhandle (growErrands growers bhandle)).discipline (Outcome κ))
      ⟨0, .outside⟩ past := by
  intro index within
  have here := answered _ (List.getElem_mem within)
  revert here
  rcases past[index] with ⟨process, moment | value⟩ <;> intro here
  · change Monitor.FineInside _ _ _ _
    unfold Monitor.FineInside
    split
    · exact ⟨here, fun _ unread => Bool.noConfusion unread⟩
    · trivial
  · trivial

/-- The disk that parts of errands left one after the other keeps a chain with room. -/
theorem parts_rooted (rooted : Rooted shared.file) (large : sizeofHeadFile ≤ chunkSize.toNat)
    (whole : ∀ process, (machine process).platform.WholeLinks) {sections : List (Section ι World)}
    {file : List UInt8}
    (serial : Serial (killableMonitor machine bhandle (growErrands growers bhandle)) shared.file
      sections
      file) : Rooted file := by
  refine serial.invariant (fun _ file => Rooted file) rooted ?_
  rintro earlier last rooted ⟨entered, passes⟩
  exact ((growers last.thread last.number).tended large (whole _) entered rooted).passes rooted passes

/-- Every single call lets the chain grow, wherever processes are killed: one under the lock is a
call of a part that does so, from a disk that the parts in front of it left, and one without it
keeps the file. -/
theorem turns_grow (rooted : Rooted shared.file) (large : sizeofHeadFile ≤ chunkSize.toNat)
    (positive : 0 < (areaOf bhandle).size) (settled : ∀ process, shared.Settled process)
    (whole : ∀ process, (machine process).platform.WholeLinks)
    (interleaves : Interleaves (killablePosix machine) (nextTurn growers bhandle looks)
      (turnPool growers bhandle looks shared) past pool)
    (answered : ∀ act ∈ past, AnsweredNow machine act) :
    Throughout (fun _ act => ∀ moment, act.deed = .call moment → ChainGrows moment.before.file
      (killablePosix machine act.thread moment.request moment.before).2.file) past := by
  let monitor := killableMonitor machine bhandle (growErrands growers bhandle)
  -- nothing is asked of the sections themselves here
  have rests : Monitor.Rests (Rested machine growers bhandle) (fun _ : Outcome κ => False)
      (fun _ (_ : Section ι World) => False) :=
    ⟨fun _ _ _ _ rested => rested.away.2.2, fun _ _ _ _ _ success => success.elim⟩
  have changes := @Monitor.changes _ _ _ _ _ _ _ monitor _ _ _ _ _
    (turnPool growers bhandle looks shared)
    _ _ _ (killableMonitor_lawful positive) (together_turns positive) rests
    (fun process => keeps_turn positive (settled process) _) interleaves (fine_answered answered)
  intro index within moment call
  rcases changes index within moment call with same | ⟨number, entry, serial, entered, steps⟩
  · change (killablePosix machine _ _ _).2.file = moment.before.file at same
    rw [same]
    exact ChainGrows.refl _
  · have left := parts_rooted rooted large whole serial
    exact (((growers _ number).tended large (whole _) entered left).steps _ _ steps).grows

/-- What a turn that was a walk has shown, if it answered success: the chain as it stood in front of
a call of the turn. -/
def Consistent (seen : List (List UInt8)) : Outcome κ → Prop
  | .walked _ rval _ views => rval = .success → ∃ file ∈ seen, ShowsChain file views
  | .added _ => True

/-- A turn keeps the discipline of a walk. -/
theorem watch_turn {number : Nat} {blocks : List Nat} (settled : shared.Settled process)
    (chain : ChainAt shared.file 0 blocks) :
    Keeps (killablePosix machine process) (watching machine (Outcome κ) process)
      (turn growers bhandle looks process number) [] shared
      fun value seen after => Consistent seen value ∧ ∃ blocks, ChainAt after.file 0 blocks := by
  have still {after : Shared ι} (grows : ChainGrows shared.file after.file) :
      ∃ blocks, ChainAt after.file 0 blocks := by
    obtain ⟨added, grown, -⟩ := grows blocks chain
    exact ⟨_, grown⟩
  unfold turn
  cases looks process number with
  | some look =>
    obtain ⟨rest, rfl⟩ := chain.cons
    refine Keeps.bind (watch_walk look.attentive look.fuel settled ⟨[], rest, chain, rfl⟩) ?_
    rintro ⟨rval, closure, views⟩ seen after ⟨grows, shown⟩
    exact ⟨shown, still grows⟩
  | none =>
    refine Keeps.bind (watch_any (ChainGrows.refl _)) ?_
    rintro parted seen after ⟨-, grows⟩
    exact ⟨trivial, still grows⟩

variable (machine growers bhandle κ) in
/-- The disciplines of a turn: that of the monitor, and that of a walk. -/
def turnDiscipline (process : ι) :
    Discipline Call Answer (Outcome κ) (Shared ι) (Standing World × List (List UInt8)) :=
  ((killableMonitor machine bhandle (growErrands growers bhandle)).discipline
    (Outcome κ) process).both
    (watching machine (Outcome κ) process)

/-- What holds behind a turn. -/
def TurnEnds (machine : ι → Machine) (growers : ι → Nat → Grower chunkSize) (bhandle : BlockLoc)
    (process : ι) (value : Outcome κ) (phase : Standing World × List (List UInt8))
    (after : Shared ι) :
    Prop :=
  Rested machine growers bhandle process value phase.1 after ∧ Consistent phase.2 value ∧
    ∃ blocks, ChainAt after.file 0 blocks

/-- A turn keeps the monitor, and watches the chain. -/
theorem keeps_both {number : Nat} {blocks : List Nat} (positive : 0 < (areaOf bhandle).size)
    (settled : shared.Settled process) (chain : ChainAt shared.file 0 blocks) :
    Keeps (killablePosix machine process) (turnDiscipline κ machine growers bhandle process)
      (turn growers bhandle looks process number) (⟨number, .outside⟩, []) shared
      (TurnEnds machine growers bhandle process) :=
  (keeps_turn positive settled number).both (watch_turn settled chain)

/-- The turns of all processes do so together. -/
theorem together_both (positive : 0 < (areaOf bhandle).size) :
    Together (killablePosix machine) (nextTurn growers bhandle looks)
      (turnDiscipline κ machine growers bhandle) (TurnEnds machine growers bhandle) := by
  have monitored := @together_turns _ _ _ _ machine growers bhandle looks positive
  constructor
  · exact fun process state => ⟨monitored.refl process state, rfl, ChainGrows.refl _⟩
  · intro process one other third first second
    exact ⟨monitored.trans process _ _ _ first.1 second.1, second.2.1.trans first.2.1,
      first.2.2.trans second.2.2⟩
  · intro process other phase moment after different allowed
    exact ⟨monitored.respects process other _ _ _ different allowed.1,
      allowed.2.1 other (Ne.symm different), allowed.2.2⟩
  · rintro process value ⟨standing, seen⟩ after ⟨rested, -, blocks, chain⟩
    obtain ⟨number, settled, -⟩ := rested.away
    change Keeps _ _ _ ((⟨standing.number + 1, .outside⟩, []) : Standing World × List (List UInt8))
      _ _
    rw [number]
    exact keeps_both positive settled chain

/-- What holds of an act and the acts in front of it: a call lets the chain grow, and a walk that
answers success has shown the chain as it stood in front of one of its calls. -/
def KeepsChain (machine : ι → Machine) (earlier : List (Act ι Call Answer (Outcome κ) (Shared ι)))
    (act : Act ι Call Answer (Outcome κ) (Shared ι)) : Prop :=
  match act.deed with
  | .call moment => ChainGrows moment.before.file
      (killablePosix machine act.thread moment.request moment.before).2.file
  | .deliver value => Consistent (filesSince act.thread earlier) value

/-- However the calls of the processes interleave, wherever they are killed and whatever the failing
ones lose of what a stream holds, a walk that takes no lock and answers success has shown its viewer
the chain as it stood in front of a call of the walk, and no call of any process takes a block from
the chain. -/
theorem unlockedWalks_consistent (stored : first.Stored chunkSize recSize shared.file)
    (large : sizeofHeadFile ≤ chunkSize.toNat) (bounded : shared.file.length ≤ offMax)
    (positive : 0 < (areaOf bhandle).size) (settled : ∀ process, shared.Settled process)
    (whole : ∀ process, (machine process).platform.WholeLinks)
    (interleaves : Interleaves (killablePosix machine) (nextTurn growers bhandle looks)
      (turnPool growers bhandle looks shared) past pool)
    (answered : ∀ act ∈ past, AnsweredNow machine act) :
    Throughout (KeepsChain machine) past := by
  have grounded := stored.grounded large bounded
  have grows := turns_grow ⟨_, grounded⟩ large positive settled whole interleaves answered
  have fine : AllFine (watching machine (Outcome κ)) [] past := by
    intro index within
    have here := answered _ (List.getElem_mem within)
    have grown := grows index within
    revert here grown
    rcases past[index] with ⟨process, moment | value⟩ <;> intro here grown
    · exact ⟨here, grown moment rfl⟩
    · trivial
  have both : AllFine (turnDiscipline κ machine growers bhandle) (⟨0, .outside⟩, []) past :=
    (fine_answered answered).both fine
  refine interleaves.invariant (fun past _ => Throughout _ past) (together_both positive)
    (fun process => keeps_both positive (settled process) grounded.toChainAt) ?_ ?_ ?_ both
  · exact fun index within => absurd within (Nat.not_lt_zero index)
  · exact fun _ _ _ _ holds _ allowed => holds.concat allowed.2.2
  · intro past _ process value _ holds rested _
    unfold turnDiscipline at rested
    rw [phaseOf_both, phaseOf_watching] at rested
    exact holds.concat rested.2.1

end Turns

/-! ## A walk beside an append -/

/-- Processes that add blocks of one chunk. -/
def chunkAdders (_ : Bool) (_ : Nat) : Grower 80 := chunkGrowers true 0

/-- The second process walks first. -/
def firstLooks (process : Bool) (number : Nat) : Option (Look Unit) :=
  if process = true ∧ number = 0 then
    some ⟨4, going, (), ⟨fun _ _ _ => trivial, fun _ _ _ _ => rfl⟩⟩
  else none

/-- The run that a schedule of the two processes gives. -/
def walkRun (turns : List Bool) :
    List (Act Bool Call Answer (Outcome Unit) (Shared Bool)) ×
      Pool Bool Call Answer Stop (Outcome Unit) (Shared Bool) :=
  schedule (killablePosix soundMachine) (nextTurn chunkAdders rootArea firstLooks)
    (turnPool chunkAdders rootArea firstLooks openedTable) turns

/-- The first process has added a block and written the next one. Before it links that one, the
second process reads the first header of the chain, and when the link is in the file it reads the
others. -/
def walkTurns : List Bool :=
  List.replicate 57 false ++ [true, true] ++ List.replicate 3 false ++ List.replicate 5 true

/-- What a walk returned, and the offsets it showed. -/
def walkedTo (act : Act Bool Call Answer (Outcome Unit) (Shared Bool)) :
    Option (RndError × List OffT) :=
  match act.deed with
  | .deliver (.walked _ rval _ views) => some (rval, views.map View.offset)
  | _ => none

theorem unlockedWalks_consistent_append :
    (walkRun walkTurns).1.filterMap walkedTo = [(.success, [0, 80, 160])] ∧
      Throughout (KeepsChain soundMachine) (walkRun walkTurns).1 := by
  refine ⟨by decide +kernel, ?_⟩
  have run : Interleaves (killablePosix soundMachine) (nextTurn chunkAdders rootArea firstLooks)
      (turnPool chunkAdders rootArea firstLooks openedTable) (walkRun walkTurns).1
      (walkRun walkTurns).2 := interleaves_schedule _ walkTurns
  have settled (process : Bool) : openedTable.Settled process := rfl
  have whole (process : Bool) : (soundMachine process).platform.WholeLinks :=
    fun _ _ scheduled => absurd scheduled.symm (Option.some_ne_none _)
  have answered : ∀ act ∈ (walkRun walkTurns).1, AnsweredNow soundMachine act := by decide +kernel
  exact @unlockedWalks_consistent _ _ _ _ _ _ _ _ _ _ _ _ _ (stored_fresh (by decide)) (by decide)
    (by decide +kernel) (by decide) settled whole run answered

end Recnodb
