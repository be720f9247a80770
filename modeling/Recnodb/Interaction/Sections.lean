import Mathlib.Data.List.Induction
import Recnodb.Interaction.Threads

/-!
# Sections

A thread's program may have a section: what it does between a call that opens it and one
that closes it. A monitor says which calls these are, and what a thread that is inside has
to itself. A thread may keep back what it does, and is settled where it keeps back nothing. If
nobody but the thread inside changes what the threads share, and every thread is settled
outside, the sections of every interleaving, in the order in which they were closed, are a
serial history: each is the run of its body alone, from what the section in front of it left.
-/

namespace Interaction

open Program

/-- Where a call of a thread stands: in front of its section, inside it from the view it had on
entry, or behind it. -/
inductive Stage (ω : Type) where
  | outside
  | inside (entry : ω)
  | left (entry exit : ω)
deriving DecidableEq

theorem Stage.outside_away {ω : Type} (entry : ω) : Stage.outside ≠ .inside entry := by
  intro same
  cases same

theorem Stage.left_away {ω : Type} {start exit : ω} (entry : ω) :
    Stage.left start exit ≠ .inside entry := by
  intro same
  cases same

/-- The number of a thread's call, and where the call stands. -/
structure Standing (ω : Type) where
  number : Nat
  stage : Stage ω
deriving DecidableEq

/-- A section that was closed. -/
structure Section (ι ω : Type) where
  thread : ι
  number : Nat
  entry : ω
  exit : ω
deriving DecidableEq

/-- What a call means for the section of its thread. -/
inductive Mark where
  | plain
  | opens
  | closes
deriving DecidableEq

/-- The calls of threads that share a state, and the rules of their sections: how a body runs alone
on the view of a thread, what all views have in common, who holds the right to be inside, who has
nothing that the others do not see, which calls open and close, which leave what is shared, which a
body may make, what is assumed of the calls of a numbered section, what a call of a body may change,
and what a section is to have done. -/
structure Monitor (ι Call : Type) (Answer : Call → Type) (σ ω γ : Type) where
  handler : ι → Handler Call Answer σ
  alone : ι → Handler Call Answer ω
  view : ι → σ → ω
  common : ω → γ
  shared : σ → γ
  holds : ι → σ → Prop
  settled : ι → σ → Prop
  mark : (request : Call) → Answer request → Mark
  quiet : Call → Prop
  inner : Call → Prop
  fine : ι → Nat → Moment Call Answer σ → Prop
  steps : ι → Nat → ω → ω → ω → Prop
  ran : ι → Nat → ω → ω → Prop

namespace Monitor

variable {ι Call : Type} {Answer : Call → Type} {α σ ω γ : Type}
variable (monitor : Monitor ι Call Answer σ ω γ)

/-- What the calls must be like. -/
structure Lawful : Prop where
  common : ∀ thread state, monitor.common (monitor.view thread state) = monitor.shared state
  exclusive : ∀ one other state, monitor.holds one state → monitor.holds other state → one = other
  kept : ∀ thread other request state, other ≠ thread → monitor.holds other state →
    monitor.holds other (monitor.handler thread request state).2
  apart : ∀ thread other request state, other ≠ thread → monitor.settled other state →
    monitor.settled other (monitor.handler thread request state).2
  frame : ∀ thread other request state, other ≠ thread →
    monitor.shared (monitor.handler thread request state).2 = monitor.shared state →
    monitor.view other (monitor.handler thread request state).2 = monitor.view other state
  opens : ∀ thread request state,
    monitor.mark request (monitor.handler thread request state).1 = .opens →
    monitor.holds thread (monitor.handler thread request state).2
  quiet : ∀ thread request state, monitor.quiet request → monitor.settled thread state →
    monitor.shared (monitor.handler thread request state).2 = monitor.shared state ∧
      monitor.settled thread (monitor.handler thread request state).2
  inner : ∀ thread number request state, monitor.inner request → monitor.holds thread state →
    (∀ reply, monitor.mark request reply = .plain) ∧
      monitor.holds thread (monitor.handler thread request state).2 ∧
      (monitor.fine thread number ⟨state, request, (monitor.handler thread request state).1⟩ →
        ((monitor.handler thread request state).1,
          monitor.view thread (monitor.handler thread request state).2) =
            monitor.alone thread request (monitor.view thread state))

/-- Where a call stands behind one more deed of its thread. -/
def advance (thread : ι) (standing : Standing ω) : Deed Call Answer α σ → Standing ω
  | .deliver _ => ⟨standing.number + 1, .outside⟩
  | .call moment =>
    match monitor.mark moment.request moment.reply, standing.stage with
    | .opens, _ => ⟨standing.number,
        .inside (monitor.view thread (monitor.handler thread moment.request moment.before).2)⟩
    | .closes, .inside entry =>
      ⟨standing.number, .left entry (monitor.view thread moment.before)⟩
    | _, _ => standing

/-- The section that a deed closes. -/
def closed (thread : ι) (standing : Standing ω) : Deed Call Answer α σ → Option (Section ι ω)
  | .deliver _ => none
  | .call moment =>
    match monitor.mark moment.request moment.reply, standing.stage with
    | .closes, .inside entry =>
      some ⟨thread, standing.number, entry, monitor.view thread moment.before⟩
    | _, _ => none

/-- What the right to be inside secures; and nobody gives a thread anything to keep back. -/
structure Relies (thread : ι) (before after : σ) : Prop where
  settled : monitor.settled thread before → monitor.settled thread after
  inside : monitor.holds thread before →
    monitor.holds thread after ∧ monitor.view thread after = monitor.view thread before

/-- What a thread may do: it leaves the others what they rely on, changes what is shared inside only
and as its body does, enters from the outside with the right to, and closes a section that did what
it is to do. -/
structure Allows (thread : ι) (standing : Standing ω) (moment : Moment Call Answer σ) (after : σ) :
    Prop where
  others : ∀ other, other ≠ thread → monitor.Relies other moment.before after
  outside : (∀ entry, standing.stage ≠ .inside entry) →
    monitor.shared after = monitor.shared moment.before
  opens : monitor.mark moment.request moment.reply = .opens →
    standing.stage = .outside ∧ monitor.holds thread after
  inside : ∀ entry, standing.stage = .inside entry → monitor.holds thread moment.before ∧
    (monitor.mark moment.request moment.reply ≠ .closes → monitor.holds thread after ∧
      monitor.steps thread standing.number entry (monitor.view thread moment.before)
        (monitor.view thread after)) ∧
    (monitor.mark moment.request moment.reply = .closes →
      monitor.ran thread standing.number entry (monitor.view thread moment.before) ∧
        monitor.shared after = monitor.shared moment.before)

/-- The assumption on a call, which only the calls of a section need. -/
def FineInside (thread : ι) (standing : Standing ω) (moment : Moment Call Answer σ) : Prop :=
  match standing.stage with
  | .inside _ => monitor.fine thread standing.number moment
  | _ => True

instance [∀ thread number moment, Decidable (monitor.fine thread number moment)] (thread : ι)
    (standing : Standing ω) (moment : Moment Call Answer σ) :
    Decidable (monitor.FineInside thread standing moment) :=
  match standing with
  | ⟨number, .inside _⟩ => inferInstanceAs (Decidable (monitor.fine thread number moment))
  | ⟨_, .outside⟩ => isTrue trivial
  | ⟨_, .left _ _⟩ => isTrue trivial

/-- The discipline of the threads of a monitor. -/
def discipline (α : Type) (thread : ι) : Discipline Call Answer α σ (Standing ω) where
  rely := monitor.Relies thread
  fine := monitor.FineInside thread
  allowed := monitor.Allows thread
  advance := monitor.advance thread

instance [∀ thread number moment, Decidable (monitor.fine thread number moment)] (thread : ι)
    (standing : Standing ω) (moment : Moment Call Answer σ) :
    Decidable ((monitor.discipline α thread).fine standing moment) :=
  inferInstanceAs (Decidable (monitor.FineInside thread standing moment))

end Monitor

/-! ## Rules -/

section Rules

variable {ι Call : Type} {Answer : Call → Type} {Stop α β σ ω γ : Type}
variable {monitor : Monitor ι Call Answer σ ω γ} {thread : ι} {standing : Standing ω} {state : σ}
variable {post : β → Standing ω → σ → Prop}

namespace Monitor

/-- A call that leaves what is shared, and one of a thread that has the right to be inside, leave
the others what they rely on. -/
theorem Lawful.relies (lawful : monitor.Lawful) {request : Call}
    (either : monitor.shared (monitor.handler thread request state).2 = monitor.shared state ∨
      monitor.holds thread state) {other : ι} (different : other ≠ thread) :
    monitor.Relies other state (monitor.handler thread request state).2 := by
  refine ⟨lawful.apart _ _ _ _ different, fun holds => ⟨lawful.kept _ _ _ _ different holds, ?_⟩⟩
  rcases either with same | mine
  · exact lawful.frame _ _ _ _ different same
  · exact absurd (lawful.exclusive _ _ _ holds mine) different

/-- In front of a section and behind it a settled thread makes calls that leave what is shared. -/
theorem keeps_quiet (lawful : monitor.Lawful) {program : Program Call Answer Stop β}
    (calls : program.Only fun request =>
      monitor.quiet request ∧ ∀ reply, monitor.mark request reply = .plain)
    (away : ∀ entry, standing.stage ≠ .inside entry) (settled : monitor.settled thread state) :
    Keeps (monitor.handler thread) (monitor.discipline α thread) program standing state
      fun _ behind after => behind = standing ∧ monitor.settled thread after := by
  refine Keeps.only (fun behind after => behind = standing ∧ monitor.settled thread after) calls ?_
    ⟨rfl, settled⟩
  rintro _ _ now request ⟨quiet, plain⟩ ⟨rfl, settled⟩ relied _
  obtain ⟨same, still⟩ := lawful.quiet thread _ now quiet (relied.settled settled)
  have mark := plain (monitor.handler thread request now).1
  constructor
  · refine ⟨fun other different => lawful.relies (.inl same) different, fun _ => same, ?_, ?_⟩
    · exact fun opens => Mark.noConfusion (mark.symm.trans opens)
    · exact fun entry inside => absurd inside (away entry)
  · simp only [discipline, advance, mark]
    exact ⟨trivial, still⟩

/-- The rule for the call that may open a section. -/
theorem keeps_open (lawful : monitor.Lawful) (request : Call)
    {rest : Answer request → Program Call Answer Stop β} {number : Nat}
    (quiet : monitor.quiet request) (settled : monitor.settled thread state)
    (opened : ∀ reply after, monitor.mark request reply = .opens → monitor.holds thread after →
      monitor.settled thread after →
      Keeps (monitor.handler thread) (monitor.discipline α thread) (rest reply)
        ⟨number, .inside (monitor.view thread after)⟩ after post)
    (refused : ∀ reply after, monitor.mark request reply ≠ .opens → monitor.settled thread after →
      Keeps (monitor.handler thread) (monitor.discipline α thread) (rest reply) ⟨number, .outside⟩
        after post) :
    Keeps (monitor.handler thread) (monitor.discipline α thread) (perform request >>= rest)
      ⟨number, .outside⟩ state post := by
  refine Keeps.call fun now relied _ => ?_
  obtain ⟨same, still⟩ := lawful.quiet thread _ now quiet (relied.settled settled)
  constructor
  · refine ⟨fun other different => lawful.relies (.inl same) different, fun _ => same, ?_, ?_⟩
    · exact fun opens => ⟨rfl, lawful.opens _ _ _ opens⟩
    · exact fun _ inside => nomatch inside
  · cases mark : monitor.mark request (monitor.handler thread request now).1 with
    | opens =>
      simp only [discipline, advance, mark]
      exact opened _ _ mark (lawful.opens _ _ _ mark) still
    | plain =>
      simp only [discipline, advance, mark]
      exact refused _ _ (by rw [mark]; exact Mark.noConfusion) still
    | closes =>
      simp only [discipline, advance, mark]
      exact refused _ _ (by rw [mark]; exact Mark.noConfusion) still

/-- The rule for the body of a section: it runs as it does alone. -/
theorem keeps_body (lawful : monitor.Lawful) {program : Program Call Answer Stop β}
    (calls : program.Only monitor.inner) {entry : ω} (inside : standing.stage = .inside entry)
    (holds : monitor.holds thread state)
    (steps : ∀ moment ∈ log (monitor.alone thread) program (monitor.view thread state),
      monitor.steps thread standing.number entry moment.before
        (monitor.alone thread moment.request moment.before).2) :
    Keeps (monitor.handler thread) (monitor.discipline α thread) program standing state
      fun value behind after => behind = standing ∧ monitor.holds thread after ∧
        run (monitor.alone thread) program (monitor.view thread state) =
          (.ok value, monitor.view thread after) := by
  induction program generalizing state with
  | ret value => exact ⟨rfl, holds, rfl⟩
  | stop reason => trivial
  | call request next ih =>
    intro now relied fine
    obtain ⟨mine, seen⟩ := relied.inside holds
    obtain ⟨plain, still, acts⟩ := lawful.inner thread standing.number request now calls.1 mine
    have mark := plain (monitor.handler thread request now).1
    have alone := acts (by simpa only [discipline, FineInside, inside] using fine)
    rw [seen] at alone
    have after := congrArg Prod.snd alone
    constructor
    · refine ⟨fun other different => lawful.relies (.inr mine) different, ?_, ?_, ?_⟩
      · exact fun away => absurd inside (away entry)
      · exact fun opens => Mark.noConfusion (mark.symm.trans opens)
      · intro _ here
        obtain rfl := Stage.inside.inj (inside.symm.trans here)
        refine ⟨mine, fun _ => ⟨still, ?_⟩, fun closes => Mark.noConfusion (mark.symm.trans closes)⟩
        have first := steps _ List.mem_cons_self
        dsimp only at first ⊢
        rw [seen, show monitor.view thread (monitor.handler thread request now).2 = _ from after]
        exact first
    · have same : (monitor.discipline α thread).advance standing
          (.call ⟨now, request, (monitor.handler thread request now).1⟩) = standing := by
        simp only [discipline, advance, mark]
      rw [same]
      refine (ih _ (calls.2 _) still fun moment among => steps moment ?_).mono ?_
      · rw [log, ← alone]
        exact List.mem_cons_of_mem _ among
      · rintro value behind after ⟨rfl, held, ran⟩
        refine ⟨rfl, held, ?_⟩
        rw [run, ← alone]
        exact ran

/-- What the call that closes a section is to leave: what is shared, a settled thread, and a section
that did what it is to do. -/
structure Closes (monitor : Monitor ι Call Answer σ ω γ) (thread : ι) (number : Nat) (entry : ω)
    (request : Call) (now : σ) : Prop where
  shared : monitor.shared (monitor.handler thread request now).2 = monitor.shared now
  settled : monitor.settled thread (monitor.handler thread request now).2
  ran : monitor.ran thread number entry (monitor.view thread now)

/-- The rule for the call that closes a section. -/
theorem keeps_close (lawful : monitor.Lawful) (request : Call)
    {rest : Answer request → Program Call Answer Stop β} {number : Nat} {entry : ω}
    (closes : ∀ reply, monitor.mark request reply = .closes) (holds : monitor.holds thread state)
    (leaves : ∀ now, monitor.view thread now = monitor.view thread state →
      monitor.fine thread number ⟨now, request, (monitor.handler thread request now).1⟩ →
      Closes monitor thread number entry request now)
    (each : ∀ reply after, monitor.settled thread after →
      Keeps (monitor.handler thread) (monitor.discipline α thread) (rest reply)
        ⟨number, .left entry (monitor.view thread state)⟩ after post) :
    Keeps (monitor.handler thread) (monitor.discipline α thread) (perform request >>= rest)
      ⟨number, .inside entry⟩ state post := by
  refine Keeps.call fun now relied fine => ?_
  obtain ⟨mine, seen⟩ := relied.inside holds
  obtain ⟨same, still, ran⟩ := leaves now seen fine
  have mark := closes (monitor.handler thread request now).1
  constructor
  · refine ⟨fun other different => lawful.relies (.inr mine) different, fun _ => same, ?_, ?_⟩
    · exact fun opens => Mark.noConfusion (mark.symm.trans opens)
    · rintro _ ⟨⟩
      exact ⟨mine, fun open' => absurd mark open', fun _ => ⟨ran, same⟩⟩
  · simp only [discipline, advance, mark]
    rw [seen]
    exact each _ _ still

end Monitor

end Rules

/-! ## Serial histories -/

section Histories

variable {ι Call : Type} {Answer : Call → Type} {Stop α σ ω γ : Type}
variable (monitor : Monitor ι Call Answer σ ω γ)

/-- Sections one after another: each did what it is to do, from what the one in front of it left. -/
inductive Serial (start : γ) : List (Section ι ω) → γ → Prop where
  | none : Serial start [] start
  | next {earlier : List (Section ι ω)} {last : Section ι ω} (before : Serial start earlier
      (monitor.common last.entry)) (ran : monitor.ran last.thread last.number last.entry last.exit) :
      Serial start (earlier ++ [last]) (monitor.common last.exit)

/-- The rule for a serial history: what holds of the start and is kept by every section holds at its
end. -/
theorem Serial.invariant {monitor : Monitor ι Call Answer σ ω γ} {start now : γ}
    {sections : List (Section ι ω)} (invariant : List (Section ι ω) → γ → Prop)
    (serial : Serial monitor start sections now) (initially : invariant [] start)
    (each : ∀ earlier last, invariant earlier (monitor.common last.entry) →
      monitor.ran last.thread last.number last.entry last.exit →
      invariant (earlier ++ [last]) (monitor.common last.exit)) : invariant sections now := by
  induction serial with
  | none => exact initially
  | next _ ran ih => exact each _ _ ih ran

variable [DecidableEq ι]

/-- Where the threads stand, and the sections closed so far. -/
structure Chronicle (ι ω : Type) where
  standings : ι → Standing ω
  sections : List (Section ι ω)

namespace Monitor

/-- The chronicle behind one more act. -/
def enter (chronicle : Chronicle ι ω) (act : Act ι Call Answer α σ) : Chronicle ι ω where
  standings := Function.update chronicle.standings act.thread
    (monitor.advance act.thread (chronicle.standings act.thread) act.deed)
  sections := chronicle.sections ++
    (monitor.closed act.thread (chronicle.standings act.thread) act.deed).toList

/-- The chronicle of some acts of threads that were outside. -/
def chronicle (past : List (Act ι Call Answer α σ)) : Chronicle ι ω :=
  past.foldl monitor.enter ⟨fun _ => ⟨0, .outside⟩, []⟩

/-- The sections closed in some acts, in the order in which they were closed. -/
def sections (past : List (Act ι Call Answer α σ)) : List (Section ι ω) :=
  (monitor.chronicle past).sections

variable {monitor} {past : List (Act ι Call Answer α σ)} {act : Act ι Call Answer α σ}

theorem chronicle_concat :
    monitor.chronicle (past ++ [act]) = monitor.enter (monitor.chronicle past) act := by
  simp [chronicle]

/-- Sections stay in the history. -/
theorem sections_kept (later : List (Act ι Call Answer α σ)) :
    monitor.sections past <+: monitor.sections (past ++ later) := by
  induction later using List.reverseRecOn with
  | nil => simp
  | append_singleton later act ih =>
    have longer : monitor.sections (past ++ later ++ [act]) = monitor.sections (past ++ later) ++
        (monitor.closed act.thread ((monitor.chronicle (past ++ later)).standings act.thread)
          act.deed).toList :=
      congrArg Chronicle.sections chronicle_concat
    rw [← List.append_assoc, longer]
    exact ih.trans (List.prefix_append _ _)

/-- The phases of the discipline are the standings of the chronicle. -/
theorem phaseOf_standing {thread : ι} :
    phaseOf (monitor.discipline α) ⟨0, .outside⟩ thread past =
      (monitor.chronicle past).standings thread := by
  induction past using List.reverseRecOn with
  | nil => rfl
  | append_singleton past act ih =>
    obtain ⟨turned, deed⟩ := act
    rw [chronicle_concat]
    by_cases same : turned = thread
    · subst same
      rw [phaseOf_concat_self, ih]
      simp only [enter, Function.update_self]
      rfl
    · rw [phaseOf_concat_other same, ih]
      simp only [enter, Function.update_of_ne (Ne.symm same)]

/-- What holds of a thread: inside, it has the right to be there and continues the history; behind
its section, the section is in the history; and there is one section at most for each of its calls. -/
structure Placed (monitor : Monitor ι Call Answer σ ω γ) (sections : List (Section ι ω)) (state : σ)
    (now : γ) (thread : ι) (standing : Standing ω) : Prop where
  inside : ∀ entry, standing.stage = .inside entry →
    monitor.holds thread state ∧ monitor.common entry = now
  left : ∀ entry exit, standing.stage = .left entry exit →
    ⟨thread, standing.number, entry, exit⟩ ∈ sections
  numbers : ∀ closed ∈ sections, closed.thread = thread → closed.number < standing.number ∨
    closed.number = standing.number ∧ ∃ entry exit, standing.stage = .left entry exit

/-- What holds of a chronicle: its sections are a serial history, which the thread inside continues,
and where nobody is inside, what is shared is as the history left it. -/
structure Orderly (monitor : Monitor ι Call Answer σ ω γ) (start : γ) (chronicle : Chronicle ι ω)
    (state : σ) (now : γ) : Prop where
  serial : Serial monitor start chronicle.sections now
  placed : ∀ thread, monitor.Placed chronicle.sections state now thread (chronicle.standings thread)
  idle : (∀ thread entry, (chronicle.standings thread).stage ≠ .inside entry) →
    monitor.shared state = now
  once : chronicle.sections.Pairwise fun one other =>
    (one.thread, one.number) ≠ (other.thread, other.number)

section Step

variable {chronicle : Chronicle ι ω} {thread : ι} {state after : σ} {start now : γ}

namespace Orderly

/-- A deed that opens and closes nothing. -/
theorem stays (orderly : Orderly monitor start chronicle state now) {moment : Moment Call Answer σ}
    (same : moment.before = state) (plain : monitor.mark moment.request moment.reply ≠ .closes ∨
      ∀ entry, (chronicle.standings thread).stage ≠ .inside entry)
    (allows : monitor.Allows thread (chronicle.standings thread) moment after) :
    Orderly monitor start chronicle after now where
  serial := orderly.serial
  placed other := by
    obtain ⟨inside, left, numbers⟩ := orderly.placed other
    refine ⟨fun entry here => ⟨?_, (inside entry here).2⟩, left, numbers⟩
    by_cases mine : other = thread
    · subst mine
      exact ((allows.inside entry here).2.1 (plain.resolve_right fun away => away entry here)).1
    · exact ((allows.others other mine).inside (same.symm ▸ (inside entry here).1)).1
  idle away := by
    rw [allows.outside (away thread), same]
    exact orderly.idle away
  once := orderly.once

/-- A thread enters: nobody else is inside. -/
theorem opened (orderly : Orderly monitor start chronicle state now) (lawful : monitor.Lawful)
    {moment : Moment Call Answer σ} (same : moment.before = state)
    (opens : monitor.mark moment.request moment.reply = .opens)
    (allows : monitor.Allows thread (chronicle.standings thread) moment after) :
    Orderly monitor start ⟨Function.update chronicle.standings thread
      ⟨(chronicle.standings thread).number, .inside (monitor.view thread after)⟩,
        chronicle.sections⟩ after now := by
  obtain ⟨outside, holds⟩ := allows.opens opens
  have away (other : ι) (entry : ω) : (chronicle.standings other).stage ≠ .inside entry := by
    intro inside
    by_cases mine : other = thread
    · rw [mine, outside] at inside
      exact nomatch inside
    · have held := ((orderly.placed other).inside entry inside).1
      exact mine (lawful.exclusive _ _ _
        ((allows.others other mine).inside (same.symm ▸ held)).1 holds)
  have kept : monitor.shared after = now := by
    rw [allows.outside (away thread), same]
    exact orderly.idle away
  refine ⟨orderly.serial, ?_, fun _ => kept, orderly.once⟩
  refine (Function.forall_update_iff _ _).mpr ⟨⟨?_, nofun, ?_⟩, fun other _ => ?_⟩
  · rintro _ ⟨⟩
    exact ⟨holds, (lawful.common _ _).trans kept⟩
  · intro closed among mine
    refine ((orderly.placed thread).numbers closed among mine).imp_right ?_
    rintro ⟨-, entry, exit, left⟩
    rw [outside] at left
    exact nomatch left
  · obtain ⟨-, left, numbers⟩ := orderly.placed other
    exact ⟨fun entry inside => absurd inside (away other entry), left, numbers⟩

/-- A thread leaves: its section is the next one. -/
theorem shut (orderly : Orderly monitor start chronicle state now) (lawful : monitor.Lawful)
    {moment : Moment Call Answer σ} (same : moment.before = state) {entry : ω}
    (closes : monitor.mark moment.request moment.reply = .closes)
    (inside : (chronicle.standings thread).stage = .inside entry)
    (allows : monitor.Allows thread (chronicle.standings thread) moment after) :
    Orderly monitor start ⟨Function.update chronicle.standings thread
      ⟨(chronicle.standings thread).number, .left entry (monitor.view thread state)⟩,
        chronicle.sections ++
          [⟨thread, (chronicle.standings thread).number, entry, monitor.view thread state⟩]⟩
      after (monitor.shared state) := by
  subst same
  obtain ⟨holds, -, done⟩ := allows.inside entry inside
  obtain ⟨ran, kept⟩ := done closes
  have earlier (closed : Section ι ω) (among : closed ∈ chronicle.sections)
      (mine : closed.thread = thread) : closed.number < (chronicle.standings thread).number := by
    refine ((orderly.placed thread).numbers closed among mine).resolve_right ?_
    rintro ⟨-, entry, exit, left⟩
    rw [inside] at left
    exact nomatch left
  constructor
  · rw [← lawful.common thread]
    refine Serial.next ?_ ran
    rw [((orderly.placed thread).inside entry inside).2]
    exact orderly.serial
  · refine (Function.forall_update_iff _ _).mpr ⟨⟨nofun, ?_, ?_⟩, fun other different => ?_⟩
    · rintro _ _ ⟨⟩
      exact List.mem_append_right _ (List.mem_singleton_self _)
    · intro closed among mine
      rcases List.mem_append.mp among with before | last
      · exact .inl (earlier closed before mine)
      · obtain rfl := List.mem_singleton.mp last
        exact .inr ⟨rfl, _, _, rfl⟩
    · obtain ⟨still, left, numbers⟩ := orderly.placed other
      constructor
      · intro entry here
        exact absurd (lawful.exclusive _ _ _ (still entry here).1 holds) different
      · exact fun entry exit here => List.mem_append_left _ (left entry exit here)
      · intro closed among mine
        rcases List.mem_append.mp among with before | last
        · exact numbers closed before mine
        · obtain rfl := List.mem_singleton.mp last
          exact absurd mine.symm different
  · exact fun _ => kept
  · refine List.pairwise_append.mpr ⟨orderly.once, List.pairwise_singleton _ _, ?_⟩
    intro closed before last now same
    obtain rfl := List.mem_singleton.mp now
    obtain ⟨mine, number⟩ := Prod.mk.inj same
    exact absurd number (Nat.ne_of_lt (earlier closed before mine))

/-- A call of a thread is over. -/
theorem delivered (orderly : Orderly monitor start chronicle state now)
    (away : ∀ entry, (chronicle.standings thread).stage ≠ .inside entry) :
    Orderly monitor start ⟨Function.update chronicle.standings thread
      ⟨(chronicle.standings thread).number + 1, .outside⟩, chronicle.sections⟩ state now := by
  refine ⟨orderly.serial, ?_, fun idle => ?_, orderly.once⟩
  · refine (Function.forall_update_iff _ _).mpr
      ⟨⟨nofun, nofun, ?_⟩, fun other _ => orderly.placed other⟩
    intro closed among mine
    have earlier := (orderly.placed thread).numbers closed among mine
    exact .inl (Nat.lt_succ_of_le (earlier.elim Nat.le_of_lt fun left => Nat.le_of_eq left.1))
  · refine orderly.idle fun other entry inside => ?_
    by_cases mine : other = thread
    · exact away entry (mine ▸ inside)
    · refine idle other entry ?_
      dsimp only
      rw [Function.update_of_ne mine]
      exact inside

/-- Every allowed call keeps the chronicle orderly. -/
theorem call (orderly : Orderly monitor start chronicle state now) (lawful : monitor.Lawful)
    {request : Call} (allows : monitor.Allows thread (chronicle.standings thread)
      ⟨state, request, (monitor.handler thread request state).1⟩
      (monitor.handler thread request state).2) :
    ∃ now', Orderly monitor start (monitor.enter chronicle (⟨thread,
      .call ⟨state, request, (monitor.handler thread request state).1⟩⟩ : Act ι Call Answer α σ))
      (monitor.handler thread request state).2 now' := by
  have still (plain : monitor.mark request (monitor.handler thread request state).1 ≠ .closes ∨
      ∀ entry, (chronicle.standings thread).stage ≠ .inside entry)
      (advance : monitor.advance thread (chronicle.standings thread)
        (.call ⟨state, request, (monitor.handler thread request state).1⟩ :
          Deed Call Answer α σ) = chronicle.standings thread)
      (closed : monitor.closed thread (chronicle.standings thread)
        (.call ⟨state, request, (monitor.handler thread request state).1⟩ :
          Deed Call Answer α σ) = none) :
      Orderly monitor start (monitor.enter chronicle (⟨thread,
        .call ⟨state, request, (monitor.handler thread request state).1⟩⟩ : Act ι Call Answer α σ))
        (monitor.handler thread request state).2 now := by
    simp only [enter, advance, closed, Function.update_eq_self, Option.toList_none, List.append_nil]
    exact orderly.stays rfl plain allows
  cases mark : monitor.mark request (monitor.handler thread request state).1 with
  | plain =>
    refine ⟨now, still (.inl (by rw [mark]; exact Mark.noConfusion)) ?_ ?_⟩
    · simp only [advance, mark]
    · simp only [closed, mark]
  | opens =>
    refine ⟨now, ?_⟩
    simp only [enter, advance, closed, mark, Option.toList_none, List.append_nil]
    exact orderly.opened lawful rfl mark allows
  | closes =>
    cases stage : (chronicle.standings thread).stage with
    | inside entry =>
      refine ⟨monitor.shared state, ?_⟩
      simp only [enter, advance, closed, mark, stage, Option.toList_some]
      exact orderly.shut lawful rfl mark stage allows
    | outside =>
      refine ⟨now, still (.inr fun _ => by rw [stage]; exact nofun) ?_ ?_⟩
      · simp only [advance, mark, stage]
      · simp only [closed, mark, stage]
    | left entry exit =>
      refine ⟨now, still (.inr fun _ => by rw [stage]; exact nofun) ?_ ?_⟩
      · simp only [advance, mark, stage]
      · simp only [closed, mark, stage]

end Orderly

end Step

/-! ## Interleavings -/

section Runs

variable {Stop : Type} {again : ι → α → Program Call Answer Stop α}
variable {resting : ι → α → Standing ω → σ → Prop}
variable {start pool : Pool ι Call Answer Stop α σ}

omit [DecidableEq ι] in
variable (monitor) in
/-- The disciplines of a monitor fit together if its threads keep them when they go on. -/
theorem together (goes : ∀ thread value standing state, resting thread value standing state →
      Keeps (monitor.handler thread) (monitor.discipline α thread) (again thread value)
        ⟨standing.number + 1, .outside⟩ state (resting thread)) :
    Together monitor.handler again (monitor.discipline α) resting where
  refl _ _ := ⟨id, fun holds => ⟨holds, rfl⟩⟩
  trans _ _ _ _ first second := by
    refine ⟨fun settled => second.settled (first.settled settled), fun holds => ?_⟩
    obtain ⟨still, same⟩ := first.inside holds
    obtain ⟨last, seen⟩ := second.inside still
    exact ⟨last, seen.trans same⟩
  respects _ other _ _ _ different allowed := allowed.others other (Ne.symm different)
  again := goes

/-- A thread rests away from its section, and a value that counts as a success shows what the
section did. -/
structure Rests (resting : ι → α → Standing ω → σ → Prop) (success : α → Prop)
    (shows : α → Section ι ω → Prop) : Prop where
  away : ∀ thread value standing since, resting thread value standing since →
    ∀ entry, standing.stage ≠ .inside entry
  shows : ∀ thread value standing since, resting thread value standing since → success value →
    ∃ entry exit, standing.stage = .left entry exit ∧
      shows value ⟨thread, standing.number, entry, exit⟩

/-- Every success has its section. -/
def Returned (monitor : Monitor ι Call Answer σ ω γ) (success : α → Prop)
    (shows : α → Section ι ω → Prop) (past : List (Act ι Call Answer α σ)) : Prop :=
  ∀ act ∈ past, ∀ value, act.deed = .deliver value → success value →
    ∃ closed ∈ monitor.sections past, closed.thread = act.thread ∧ shows value closed

variable {success : α → Prop} {shows : α → Section ι ω → Prop}

/-- A success keeps its section. -/
theorem Returned.concat (returned : monitor.Returned success shows past)
    (last : ∀ value, act.deed = .deliver value → success value →
      ∃ closed ∈ monitor.sections (past ++ [act]), closed.thread = act.thread ∧ shows value closed) :
    monitor.Returned success shows (past ++ [act]) := by
  intro earlier among value delivers succeeds
  rcases List.mem_append.mp among with before | now
  · obtain ⟨closed, there, same, shown⟩ := returned earlier before value delivers succeeds
    exact ⟨closed, (sections_kept [act]).subset there, same, shown⟩
  · obtain rfl := List.mem_singleton.mp now
    exact last value delivers succeeds

/-- However the threads interleave, their sections form a serial history, which the thread inside
continues, and every success has its section in it. -/
theorem serial (lawful : monitor.Lawful)
    (together : Together monitor.handler again (monitor.discipline α) resting)
    (rests : Rests resting success shows)
    (initially : ∀ thread, Keeps (monitor.handler thread) (monitor.discipline α thread)
      (start.left thread) ⟨0, .outside⟩ start.state (resting thread))
    (interleaves : Interleaves monitor.handler again start past pool)
    (fine : AllFine (monitor.discipline α) ⟨0, .outside⟩ past) :
    (∃ now, Orderly monitor (monitor.shared start.state) (monitor.chronicle past) pool.state now) ∧
      monitor.Returned success shows past := by
  refine interleaves.invariant (fun past state =>
    (∃ now, Orderly monitor (monitor.shared start.state) (monitor.chronicle past) state now) ∧
      monitor.Returned success shows past) together initially ?_ ?_ ?_ fine
  · refine ⟨⟨_, .none, fun _ => ⟨nofun, nofun, nofun⟩, fun _ => rfl, .nil⟩, ?_⟩
    exact fun _ among => absurd among List.not_mem_nil
  · rintro past state thread request ⟨⟨now, orderly⟩, returned⟩ _ allowed
    rw [phaseOf_standing] at allowed
    rw [chronicle_concat]
    refine ⟨orderly.call lawful allowed, returned.concat ?_⟩
    exact fun _ delivers => nomatch delivers
  · rintro past state thread value since ⟨⟨now, orderly⟩, returned⟩ rest _
    rw [phaseOf_standing] at rest
    rw [chronicle_concat]
    constructor
    · refine ⟨now, ?_⟩
      simp only [enter, closed, Option.toList_none, List.append_nil]
      exact orderly.delivered (rests.away _ _ _ _ rest)
    · refine returned.concat ?_
      rintro _ ⟨⟩ succeeds
      obtain ⟨entry, exit, left, shown⟩ := rests.shows _ _ _ _ rest succeeds
      refine ⟨_, ?_, rfl, shown⟩
      rw [sections, chronicle_concat]
      exact List.mem_append_left _ ((orderly.placed thread).left entry exit left)

/-- What a call changes of what is shared, it changes inside its section, as a call of a body that
began where the history in front of it stood. -/
theorem changes (lawful : monitor.Lawful)
    (together : Together monitor.handler again (monitor.discipline α) resting)
    (rests : Rests resting success shows)
    (initially : ∀ thread, Keeps (monitor.handler thread) (monitor.discipline α thread)
      (start.left thread) ⟨0, .outside⟩ start.state (resting thread))
    (interleaves : Interleaves monitor.handler again start past pool)
    (fine : AllFine (monitor.discipline α) ⟨0, .outside⟩ past) :
    Throughout (fun past act => ∀ moment, act.deed = .call moment →
      let after := (monitor.handler act.thread moment.request moment.before).2
      monitor.shared after = monitor.shared moment.before ∨ ∃ number entry,
        Serial monitor (monitor.shared start.state) (monitor.sections past) (monitor.common entry) ∧
          monitor.steps act.thread number entry (monitor.view act.thread moment.before)
            (monitor.view act.thread after)) past := by
  intro index within moment call
  obtain ⟨thread, before, behind, earlier, turn⟩ := interleaves.at_act within
  have fine' := Throughout.take fine index
  obtain ⟨⟨now, orderly⟩, -⟩ := serial lawful together rests initially earlier fine'
  obtain ⟨since, relied, keeps⟩ := earlier.kept together initially fine' thread
  rcases Pool.step_cases turn with ⟨value, -, same, -⟩ | ⟨request, next, left, same, -⟩
  · rw [same] at call
    exact nomatch call
  · have here := fine index within
    rw [same] at call here ⊢
    obtain rfl := Deed.call.inj call
    rw [left] at keeps
    have allowed := (keeps before.state relied here).1
    rw [phaseOf_standing] at allowed
    cases stage : ((monitor.chronicle (past.take index)).standings thread).stage with
    | inside entry =>
      obtain ⟨-, still, closed⟩ := allowed.inside entry stage
      by_cases closes : monitor.mark request (monitor.handler thread request before.state).1 = .closes
      · exact .inl (closed closes).2
      · refine .inr ⟨_, entry, ?_, (still closes).2⟩
        rw [((orderly.placed thread).inside entry stage).2]
        exact orderly.serial
    | outside => exact .inl (allowed.outside fun entry => stage ▸ Stage.outside_away entry)
    | left entry exit => exact .inl (allowed.outside fun entry => stage ▸ Stage.left_away entry)

end Runs

end Monitor

end Histories

end Interaction
