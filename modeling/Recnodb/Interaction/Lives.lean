import Recnodb.Interaction.Steps
import Recnodb.Interaction.Sections

/-!
# Lives

A program may be cut off in front of any of its calls, and what its end leaves to be done
follows then. A thread whose program is cut off inside its section passes through a state of
the run of the body; if what follows closes the section, the sections are a serial history of
such parts of runs.
-/

namespace Interaction

namespace Program

variable {Call : Type} {Answer : Call → Type} {Stop α β σ : Type}

/-- The program that goes away where it would make one call more than it has left, or where it
stops. One that gets to its value delivers it with the number of calls it still has. -/
def cut : Nat → Program Call Answer Stop α → Program Call Answer Stop (Option (α × Nat))
  | left, .ret value => .ret (some (value, left))
  | _, .stop _ => .ret none
  | 0, .call _ _ => .ret none
  | left + 1, .call request next => .call request fun reply => cut left (next reply)

/-- The calls that the first part of a sequence leaves are those of the second one. -/
theorem cut_bind (left : Nat) (program : Program Call Answer Stop α)
    (rest : α → Program Call Answer Stop β) :
    cut left (program >>= rest) = cut left program >>= fun
      | none => .ret none
      | some (value, left) => cut left (rest value) := by
  induction program generalizing left with
  | ret value =>
    cases left with
    | zero => rfl
    | succ left => rfl
  | stop reason =>
    cases left with
    | zero => rfl
    | succ left => rfl
  | call request next ih =>
    cases left with
    | zero => rfl
    | succ left => exact congrArg (Program.call request) (funext fun reply => ih reply left)

theorem only_cut {permitted : Call → Prop} {program : Program Call Answer Stop α}
    (allowed : program.Only permitted) (left : Nat) : (cut left program).Only permitted := by
  induction program generalizing left with
  | ret value => cases left <;> trivial
  | stop reason => cases left <;> trivial
  | call request next ih =>
    cases left with
    | zero => trivial
    | succ left => exact ⟨allowed.1, fun reply => ih reply (allowed.2 reply) left⟩

section Runs

variable {handler : Handler Call Answer σ} {program : Program Call Answer Stop α} {state : σ}

/-- A program that gets to its value has run as it does without an end. -/
theorem run_cut {left rest : Nat} {value : α} {after : σ}
    (completed : run handler (cut left program) state = (.ok (some (value, rest)), after)) :
    run handler program state = (.ok value, after) := by
  induction program generalizing left state with
  | ret delivered =>
    cases left <;> (obtain ⟨same, rfl⟩ := run_ret_inv handler completed; cases same; rfl)
  | stop reason =>
    cases left <;> exact nomatch (run_ret_inv handler completed).1
  | call request next ih =>
    cases left with
    | zero => exact nomatch (run_ret_inv handler completed).1
    | succ left => exact ih _ completed

/-- The calls of a program that is cut off are calls of the program. -/
theorem log_cut (left : Nat) : log handler (cut left program) state <+: log handler program state :=
    by
  induction program generalizing left state with
  | ret value => cases left <;> exact List.nil_prefix
  | stop reason => cases left <;> exact List.nil_prefix
  | call request next ih =>
    cases left with
    | zero => exact List.nil_prefix
    | succ left => exact (List.prefix_cons_inj _).mpr (ih _ left)

/-- Wherever a program is cut off, its run passes through the state it leaves. -/
theorem passes_cut (left : Nat) :
    Passes handler program state (run handler (cut left program) state).2 := by
  induction program generalizing left state with
  | ret value => cases left <;> exact .inr rfl
  | stop reason => cases left <;> exact .inr rfl
  | call request next ih =>
    cases left with
    | zero => exact .inl ⟨_, List.mem_cons_self, rfl⟩
    | succ left =>
      refine (ih _ left).imp_left ?_
      rintro ⟨moment, among, same⟩
      exact ⟨moment, List.mem_cons_of_mem _ among, same⟩

end Runs

/-- The life of a program: where it is cut off, what its end leaves to be done follows. -/
def mortal (left : Nat) (program ending : Program Call Answer Stop α) : Program Call Answer Stop α :=
  cut left program >>= fun
    | none => ending
    | some (value, _) => .ret value

theorem mortal_bind (left : Nat) (program : Program Call Answer Stop α)
    (rest : α → Program Call Answer Stop β) (ending : Program Call Answer Stop β) :
    mortal left (program >>= rest) ending = cut left program >>= fun
      | none => ending
      | some (value, left) => mortal left (rest value) ending := by
  rw [mortal, cut_bind, bind_assoc]
  refine congrArg _ (funext fun outcome => ?_)
  cases outcome with
  | none => rfl
  | some reached => rfl

end Program

open Program

/-! ## Rules -/

namespace Monitor

section Rules

variable {ι Call : Type} {Answer : Call → Type} {Stop α β δ σ ω γ : Type}
variable {monitor : Monitor ι Call Answer σ ω γ} {thread : ι} {standing : Standing ω} {state : σ}
variable {post : β → Standing ω → σ → Prop} {ending : Program Call Answer Stop β} {left : Nat}

/-- A call that may close a section closes nothing away from one. -/
theorem keeps_away (lawful : monitor.Lawful) (request : Call)
    {rest : Answer request → Program Call Answer Stop β} (quiet : monitor.quiet request)
    (unopened : ∀ reply, monitor.mark request reply ≠ .opens)
    (away : ∀ entry, standing.stage ≠ .inside entry) (settled : monitor.settled thread state)
    (each : ∀ reply after, monitor.settled thread after →
      Keeps (monitor.handler thread) (monitor.discipline α thread) (rest reply) standing after post) :
    Keeps (monitor.handler thread) (monitor.discipline α thread) (perform request >>= rest) standing
      state post := by
  refine Keeps.call fun now relied _ => ?_
  obtain ⟨same, still⟩ := lawful.quiet thread _ now quiet (relied.settled settled)
  constructor
  · refine ⟨fun other different => lawful.relies (.inl same) different, fun _ => same, ?_, ?_⟩
    · exact fun opens => absurd opens (unopened _)
    · exact fun entry inside => absurd inside (away entry)
  · have stays : (monitor.discipline α thread).advance standing
        (.call ⟨now, request, (monitor.handler thread request now).1⟩) = standing := by
      cases mark : monitor.mark request (monitor.handler thread request now).1 with
      | plain => simp only [discipline, advance, mark]
      | opens => exact absurd mark (unopened _)
      | closes =>
        cases stage : standing.stage with
        | inside entry => exact absurd stage (away entry)
        | outside => simp only [discipline, advance, mark, stage]
        | left entry exit => simp only [discipline, advance, mark, stage]
    rw [stays]
    exact each _ _ still

/-- The calls in front of a section or behind it, of a thread that may end at each of them. -/
theorem keeps_mortal_quiet (lawful : monitor.Lawful) {program : Program Call Answer Stop δ}
    {rest : δ → Program Call Answer Stop β} (calls : program.Only fun request =>
      monitor.quiet request ∧ ∀ reply, monitor.mark request reply = .plain)
    (away : ∀ entry, standing.stage ≠ .inside entry) (settled : monitor.settled thread state)
    (ends : ∀ now, monitor.settled thread now →
      Keeps (monitor.handler thread) (monitor.discipline α thread) ending standing now post)
    (goes : ∀ value left now, monitor.settled thread now →
      Keeps (monitor.handler thread) (monitor.discipline α thread) (mortal left (rest value) ending)
        standing now post) :
    Keeps (monitor.handler thread) (monitor.discipline α thread)
      (mortal left (program >>= rest) ending)
      standing state post := by
  rw [mortal_bind]
  refine Keeps.bind (keeps_quiet lawful (only_cut calls left) away settled) ?_
  rintro outcome _ now ⟨rfl, still⟩
  cases outcome with
  | none => exact ends now still
  | some reached => exact goes _ _ now still

/-- The call that may open a section, of a thread that may end in front of it. -/
theorem keeps_mortal_open (lawful : monitor.Lawful) (request : Call)
    {rest : Answer request → Program Call Answer Stop β} {number : Nat}
    (quiet : monitor.quiet request) (settled : monitor.settled thread state)
    (ends : Keeps (monitor.handler thread)
      (monitor.discipline α thread) ending ⟨number, .outside⟩ state
      post)
    (opened : ∀ left reply after, monitor.mark request reply = .opens → monitor.holds thread after →
      monitor.settled thread after →
      Keeps (monitor.handler thread) (monitor.discipline α thread) (mortal left (rest reply) ending)
        ⟨number, .inside (monitor.view thread after)⟩ after post)
    (refused : ∀ left reply after, monitor.mark request reply ≠ .opens →
      monitor.settled thread after →
      Keeps (monitor.handler thread) (monitor.discipline α thread) (mortal left (rest reply) ending)
        ⟨number, .outside⟩ after post) :
    Keeps (monitor.handler thread) (monitor.discipline α thread)
      (mortal left (perform request >>= rest) ending) ⟨number, .outside⟩ state post := by
  cases left with
  | zero => exact ends
  | succ left => exact keeps_open lawful request quiet settled (opened left) (refused left)

/-- The body of a section: the thread gets to its value, or it ends in a state that the run of the
body passes through. -/
theorem keeps_mortal_body (lawful : monitor.Lawful) {program : Program Call Answer Stop δ}
    {rest : δ → Program Call Answer Stop β} (calls : program.Only monitor.inner) {entry : ω}
    (inside : standing.stage = .inside entry) (holds : monitor.holds thread state)
    (steps : ∀ moment ∈ log (monitor.alone thread) program (monitor.view thread state),
      monitor.steps thread standing.number entry moment.before
        (monitor.alone thread moment.request moment.before).2)
    (ends : ∀ after, monitor.holds thread after →
      Passes (monitor.alone thread) program (monitor.view thread state) (monitor.view thread after) →
      Keeps (monitor.handler thread) (monitor.discipline α thread) ending standing after post)
    (goes : ∀ value left after, monitor.holds thread after →
      run (monitor.alone thread) program (monitor.view thread state) =
        (.ok value, monitor.view thread after) →
      Keeps (monitor.handler thread) (monitor.discipline α thread) (mortal left (rest value) ending)
        standing after post) :
    Keeps (monitor.handler thread) (monitor.discipline α thread)
      (mortal left (program >>= rest) ending)
      standing state post := by
  rw [mortal_bind]
  refine Keeps.bind (keeps_body lawful (only_cut calls left) inside holds fun moment among =>
    steps moment ((log_cut left).subset among)) ?_
  rintro outcome _ after ⟨rfl, held, ran⟩
  cases outcome with
  | none =>
    refine ends after held ?_
    have passes := @passes_cut _ _ _ _ _ (monitor.alone thread) program
      (monitor.view thread state) left
    rwa [ran] at passes
  | some reached => exact goes _ _ after held (run_cut ran)

/-- The call that closes a section, of a thread that may end in front of it. -/
theorem keeps_mortal_close (lawful : monitor.Lawful) (request : Call)
    {rest : Answer request → Program Call Answer Stop β} {number : Nat} {entry : ω}
    (closes : ∀ reply, monitor.mark request reply = .closes) (holds : monitor.holds thread state)
    (leaves : ∀ now, monitor.view thread now = monitor.view thread state →
      monitor.fine thread number ⟨now, request, (monitor.handler thread request now).1⟩ →
      Closes monitor thread number entry request now)
    (ends : Keeps (monitor.handler thread)
      (monitor.discipline α thread) ending ⟨number, .inside entry⟩
      state post)
    (each : ∀ left reply after, monitor.settled thread after →
      Keeps (monitor.handler thread) (monitor.discipline α thread) (mortal left (rest reply) ending)
        ⟨number, .left entry (monitor.view thread state)⟩ after post) :
    Keeps (monitor.handler thread) (monitor.discipline α thread)
      (mortal left (perform request >>= rest) ending) ⟨number, .inside entry⟩ state post := by
  cases left with
  | zero => exact ends
  | succ left => exact keeps_close lawful request closes holds leaves (each left)

end Rules

end Monitor

end Interaction
