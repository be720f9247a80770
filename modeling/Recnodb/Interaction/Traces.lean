import Recnodb.Interaction.Program

/-!
# Traces

What is known of a run from its calls and their replies alone. A phase is advanced by
every call; a program is traced if each of its calls is allowed in the phase it is made in,
whatever was answered before, if it stops for allowed reasons only, and if its value fits
the phase it ends in. Nothing is assumed about the environment, so what is traced holds of
the runs against every handler.
-/

namespace Interaction.Program

variable {Call : Type} {Answer : Call → Type} {Stop α β σ φ : Type}

/-- How calls and replies advance a phase, which calls it allows, and for which reasons a
program may stop. -/
structure Tracer (Call : Type) (Answer : Call → Type) (Stop φ : Type) where
  allowed : φ → Call → Prop
  halts : Stop → Prop
  advance : φ → (request : Call) → Answer request → φ

/-- Every call is allowed where it is made, and the value fits the last phase. -/
def Traced (tracer : Tracer Call Answer Stop φ) :
    Program Call Answer Stop α → φ → (α → φ → Prop) → Prop
  | .ret value, phase, post => post value phase
  | .stop reason, _, _ => tracer.halts reason
  | .call request next, phase, post => tracer.allowed phase request ∧
      ∀ reply, (next reply).Traced tracer (tracer.advance phase request reply) post

/-- The phase behind some calls. -/
def Tracer.behind (tracer : Tracer Call Answer Stop φ) (phase : φ)
    (past : List (Moment Call Answer σ)) :
    φ :=
  past.foldl (fun phase moment => tracer.advance phase moment.request moment.reply) phase

/-- What every call keeps of the calls so far, the phase and the state, a run keeps. -/
theorem Tracer.follows (tracer : Tracer Call Answer Stop φ) (handler : Handler Call Answer σ)
    (invariant : List (Moment Call Answer σ) → φ → σ → Prop)
    (keeps : ∀ past phase state request, invariant past phase state →
      invariant (past ++ [⟨state, request, (handler request state).1⟩])
        (tracer.advance phase request (handler request state).1) (handler request state).2)
    (program : Program Call Answer Stop α) {past : List (Moment Call Answer σ)} {phase : φ}
    {state : σ} (initially : invariant past phase state) :
    invariant (past ++ log handler program state)
      (tracer.behind phase (log handler program state)) (run handler program state).2 := by
  induction program generalizing past phase state with
  | ret value =>
    rw [log, List.append_nil]
    exact initially
  | stop reason =>
    rw [log, List.append_nil]
    exact initially
  | call request next ih =>
    have rest := ih (handler request state).1 (keeps past phase state request initially)
    rw [List.append_assoc] at rest
    exact rest

namespace Traced

variable {tracer : Tracer Call Answer Stop φ} {phase : φ}

theorem mono {program : Program Call Answer Stop α} {post post' : α → φ → Prop}
    (traced : program.Traced tracer phase post)
    (stronger : ∀ value phase, post value phase → post' value phase) :
    program.Traced tracer phase post' := by
  induction program generalizing phase with
  | ret value => exact stronger _ _ traced
  | stop reason => exact traced
  | call request next ih => exact ⟨traced.1, fun reply => ih reply (traced.2 reply)⟩

/-- The rule for one call. -/
theorem call {request : Call} {rest : Answer request → Program Call Answer Stop β}
    {post : β → φ → Prop} (allowed : tracer.allowed phase request)
    (each : ∀ reply, (rest reply).Traced tracer (tracer.advance phase request reply) post) :
    (perform request >>= rest).Traced tracer phase post := ⟨allowed, each⟩

/-- The sequence rule. -/
theorem bind {program : Program Call Answer Stop α} {rest : α → Program Call Answer Stop β}
    {middle : α → φ → Prop} {post : β → φ → Prop} (first : program.Traced tracer phase middle)
    (second : ∀ value phase, middle value phase → (rest value).Traced tracer phase post) :
    (program >>= rest).Traced tracer phase post := by
  induction program generalizing phase with
  | ret value => exact second _ _ first
  | stop reason => exact first
  | call request next ih => exact ⟨first.1, fun reply => ih reply (first.2 reply)⟩

/-- The loop rule: every round starts and goes on where the invariant holds. -/
theorem iterate (invariant : β → φ → Prop) {exhausted : Stop} (halts : tracer.halts exhausted)
    {body : β → Program Call Answer Stop (β ⊕ α)} {post : α → φ → Prop}
    (round : ∀ current phase, invariant current phase →
      (body current).Traced tracer phase fun outcome phase =>
        match outcome with
        | .inl next => invariant next phase
        | .inr value => post value phase)
    (fuel : Nat) {current : β} (initially : invariant current phase) :
    (Program.iterate exhausted body fuel current).Traced tracer phase post := by
  induction fuel generalizing current phase with
  | zero => exact halts
  | succ fuel ih =>
    refine bind (round current phase initially) fun outcome phase holds => ?_
    cases outcome with
    | inl next => exact ih holds
    | inr value => exact holds

/-- Calls that are allowed in a phase and leave it. -/
theorem answered {permitted : Call → Prop} {good : α → Prop} {program : Program Call Answer Stop α}
    (calls : program.Only permitted) (answers : program.Answers good)
    (stays : ∀ request, permitted request →
      tracer.allowed phase request ∧ ∀ reply, tracer.advance phase request reply = phase) :
    program.Traced tracer phase fun value after => good value ∧ after = phase := by
  induction program with
  | ret value => exact ⟨answers, rfl⟩
  | stop reason => exact answers.elim
  | call request next ih =>
    obtain ⟨allowed, same⟩ := stays request calls.1
    exact ⟨allowed, fun reply => (same reply).symm ▸ ih reply (calls.2 reply) (answers reply)⟩

/-- A program that may do anything. -/
theorem free (calls : ∀ phase request, tracer.allowed phase request)
    (stops : ∀ reason, tracer.halts reason) (program : Program Call Answer Stop α) (phase : φ) :
    program.Traced tracer phase fun _ _ => True := by
  induction program generalizing phase with
  | ret value => trivial
  | stop reason => exact stops reason
  | call request next ih => exact ⟨calls _ _, fun reply => ih reply _⟩

variable {program : Program Call Answer Stop α} {post : α → φ → Prop}

/-- In every run, the value fits the phase behind the calls. -/
theorem run (traced : program.Traced tracer phase post) (handler : Handler Call Answer σ)
    {state after : σ} {value : α}
    (completed : Program.run handler program state = (.ok value, after)) :
    post value (tracer.behind phase (log handler program state)) := by
  induction program generalizing phase state with
  | ret delivered =>
    obtain ⟨rfl, -⟩ := run_ret_inv handler completed
    exact traced
  | stop reason => simp at completed
  | call request next ih => exact ih _ (traced.2 _) completed

/-- A run stops for allowed reasons only. -/
theorem halts (traced : program.Traced tracer phase post) (handler : Handler Call Answer σ)
    {state after : σ} {reason : Stop}
    (stopped : Program.run handler program state = (.error reason, after)) :
    tracer.halts reason := by
  induction program generalizing phase state with
  | ret value => simp at stopped
  | stop given =>
    rw [run_stop, Prod.mk.injEq, Except.error.injEq] at stopped
    exact stopped.1 ▸ traced
  | call request next ih => exact ih _ (traced.2 _) stopped

/-- In every run, each call is allowed in the phase behind those in front of it. -/
theorem log (traced : program.Traced tracer phase post) (handler : Handler Call Answer σ) (state : σ)
    {front behind : List (Moment Call Answer σ)} {moment : Moment Call Answer σ}
    (split : Program.log handler program state = front ++ moment :: behind) :
    tracer.allowed (tracer.behind phase front) moment.request := by
  have some (front : List (Moment Call Answer σ)) : front ++ moment :: behind ≠ [] :=
    List.append_ne_nil_of_right_ne_nil _ (List.cons_ne_nil _ _)
  induction program generalizing phase state front with
  | ret value => exact absurd split.symm (some front)
  | stop reason => exact absurd split.symm (some front)
  | call request next ih =>
    cases front with
    | nil =>
      obtain ⟨rfl, -⟩ := List.cons.inj split
      exact traced.1
    | cons first front =>
      obtain ⟨rfl, rest⟩ := List.cons.inj split
      exact ih _ (traced.2 _) _ rest

end Traced

end Interaction.Program
