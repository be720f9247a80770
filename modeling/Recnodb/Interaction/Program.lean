import Mathlib.Tactic.Common

/-!
# Interactive programs

A program is a finite tree of requests to its environment: it answers with a
value, stops for a stated reason, or makes one call and continues with the
reply. Nothing is assumed about the environment. A handler gives one by fixing
the reply and the next state of every call; the run of a program against a
handler and the list of moments it passes through are both structural.

Loops whose number of rounds is not known in advance are iterated with fuel.
Running out is a stated reason to stop, never a value, so a completed result is
the result for every larger amount as well.
-/

namespace Interaction

/-- A tree of calls. Each call carries a continuation for every possible reply;
`stop` has none, because nothing runs after it. -/
inductive Program (Call : Type) (Answer : Call → Type) (Stop α : Type) : Type where
  | ret (value : α)
  | stop (reason : Stop)
  | call (request : Call) (next : Answer request → Program Call Answer Stop α)

namespace Program

variable {Call : Type} {Answer : Call → Type} {Stop α β γ σ : Type}

/-- Run the continuation on the value; a stop is final. -/
protected def bind : Program Call Answer Stop α → (α → Program Call Answer Stop β) →
    Program Call Answer Stop β
  | .ret value, rest => rest value
  | .stop reason, _ => .stop reason
  | .call request next, rest => .call request fun reply => (next reply).bind rest

instance : Monad (Program Call Answer Stop) where
  pure := .ret
  bind := Program.bind

/-- What follows a value. -/
@[simp] theorem ret_bind (value : α) (rest : α → Program Call Answer Stop β) :
    (Program.ret value >>= rest) = rest value := rfl

/-- Nothing follows a stop. -/
@[simp] theorem stop_bind (reason : Stop) (rest : α → Program Call Answer Stop β) :
    (Program.stop reason >>= rest) = .stop reason := rfl

/-- What follows a call is put behind its replies. -/
@[simp] theorem call_bind (request : Call) (next : Answer request → Program Call Answer Stop α)
    (rest : α → Program Call Answer Stop β) :
    (Program.call request next >>= rest) = .call request fun reply => next reply >>= rest := rfl

/-- `pure` is a value. -/
@[simp] theorem pure_eq_ret (value : α) :
    (pure value : Program Call Answer Stop α) = .ret value := rfl

instance : LawfulMonad (Program Call Answer Stop) := LawfulMonad.mk' _
  (by
    intro α program
    induction program with
    | ret value => rfl
    | stop reason => rfl
    | call request next ih => exact congrArg (Program.call request) (funext ih))
  (by intros; rfl)
  (by
    intro α β γ program first second
    induction program with
    | ret value => rfl
    | stop reason => rfl
    | call request next ih => exact congrArg (Program.call request) (funext ih))

/-- One call, answering with the reply itself. -/
def perform (request : Call) : Program Call Answer Stop (Answer request) :=
  .call request .ret

/-- Continue only if a checked fact holds; otherwise stop for the given reason. -/
def require (reason : Stop) (fact : Bool) : Program Call Answer Stop Unit :=
  if fact then .ret () else .stop reason

/-- Repeat a body until it delivers a value. Each round costs one unit of fuel;
exhausted fuel stops the program, it never produces a value. -/
def iterate (exhausted : Stop) (body : β → Program Call Answer Stop (β ⊕ α)) :
    Nat → β → Program Call Answer Stop α
  | 0, _ => .stop exhausted
  | fuel + 1, current => body current >>= fun
    | .inl next => iterate exhausted body fuel next
    | .inr value => .ret value

/-! ## Runs against a handler -/

/-- An environment: the reply to each call and the state it leaves. -/
abbrev Handler (Call : Type) (Answer : Call → Type) (σ : Type) :=
  (request : Call) → σ → Answer request × σ

/-- The completed run: a value or the reason for stopping, and the last state. -/
def run (handler : Handler Call Answer σ) : Program Call Answer Stop α → σ → Except Stop α × σ
  | .ret value, state => (.ok value, state)
  | .stop reason, state => (.error reason, state)
  | .call request next, state =>
      run handler (next (handler request state).1) (handler request state).2

/-- One call of a run: the state it was made in, the request and its reply. -/
structure Moment (Call : Type) (Answer : Call → Type) (σ : Type) where
  before : σ
  request : Call
  reply : Answer request

/-- The calls of a run in order. -/
def log (handler : Handler Call Answer σ) :
    Program Call Answer Stop α → σ → List (Moment Call Answer σ)
  | .ret _, _ => []
  | .stop _, _ => []
  | .call request next, state =>
      ⟨state, request, (handler request state).1⟩ ::
        log handler (next (handler request state).1) (handler request state).2

variable (handler : Handler Call Answer σ)

/-- The run of a value. -/
@[simp] theorem run_ret (value : α) (state : σ) :
    run handler (.ret value : Program Call Answer Stop α) state = (.ok value, state) := rfl

/-- A run that delivers a value, as a pair. -/
theorem run_eq_of_value {program : Program Call Answer Stop α} {state : σ} {value : α}
    (delivered : (run handler program state).1 = .ok value) :
    run handler program state = (.ok value, (run handler program state).2) :=
  Prod.ext delivered rfl

/-- A program without calls delivers its value and leaves the state. -/
theorem run_ret_inv {value result : α} {state after : σ}
    (completed : run handler (.ret value : Program Call Answer Stop α) state =
      (.ok result, after)) : result = value ∧ after = state := by
  simp only [run_ret, Prod.mk.injEq, Except.ok.injEq] at completed
  exact ⟨completed.1.symm, completed.2.symm⟩

/-- The run of a stop. -/
@[simp] theorem run_stop (reason : Stop) (state : σ) :
    run handler (.stop reason : Program Call Answer Stop α) state = (.error reason, state) := rfl

/-- The run of a single call. -/
@[simp] theorem run_perform (request : Call) (state : σ) :
    run handler (perform request : Program Call Answer Stop _) state =
      (.ok (handler request state).1, (handler request state).2) := rfl

/-- A sequence runs its second part from the state and value the first delivers. -/
theorem run_bind (program : Program Call Answer Stop α) (rest : α → Program Call Answer Stop β)
    (state : σ) :
    run handler (program >>= rest) state =
      match run handler program state with
      | (.ok value, after) => run handler (rest value) after
      | (.error reason, after) => (.error reason, after) := by
  induction program generalizing state with
  | ret value => rfl
  | stop reason => rfl
  | call request next ih => exact ih _ _

/-- The form used to run a program forward, one known part at a time. -/
theorem run_bind_ok {program : Program Call Answer Stop α} {state after : σ} {value : α}
    (first : run handler program state = (.ok value, after))
    (rest : α → Program Call Answer Stop β) :
    run handler (program >>= rest) state = run handler (rest value) after := by
  rw [run_bind, first]

/-- A completed sequence has a completed first part. -/
theorem run_bind_inv {program : Program Call Answer Stop α} {rest : α → Program Call Answer Stop β}
    {state final : σ} {result : β}
    (completed : run handler (program >>= rest) state = (.ok result, final)) :
    ∃ value middle, run handler program state = (.ok value, middle) ∧
      run handler (rest value) middle = (.ok result, final) := by
  rw [run_bind] at completed
  split at completed
  · rename_i value middle first
    exact ⟨value, middle, first, completed⟩
  · simp at completed

/-- The calls of a sequence are those of its parts. -/
theorem log_bind (program : Program Call Answer Stop α) (rest : α → Program Call Answer Stop β)
    (state : σ) :
    log handler (program >>= rest) state = log handler program state ++
      match run handler program state with
      | (.ok value, after) => log handler (rest value) after
      | (.error _, _) => [] := by
  induction program generalizing state with
  | ret value => rfl
  | stop reason => rfl
  | call request next ih => exact congrArg (List.cons _) (ih _ _)

/-- The calls of a sequence are those of its parts, if the first one completes. -/
theorem log_bind_ok {program : Program Call Answer Stop α} {state after : σ} {value : α}
    (first : run handler program state = (.ok value, after))
    (rest : α → Program Call Answer Stop β) :
    log handler (program >>= rest) state =
      log handler program state ++ log handler (rest value) after := by
  rw [log_bind, first]

/-- Without fuel the loop stops. -/
@[simp] theorem iterate_zero (exhausted : Stop) (body : β → Program Call Answer Stop (β ⊕ α))
    (current : β) : iterate exhausted body 0 current = .stop exhausted := rfl

/-- One round, and then the loop goes on or delivers. -/
theorem iterate_succ (exhausted : Stop) (body : β → Program Call Answer Stop (β ⊕ α))
    (fuel : Nat) (current : β) :
    iterate exhausted body (fuel + 1) current = body current >>= fun
      | .inl next => iterate exhausted body fuel next
      | .inr value => .ret value := rfl

/-- A round that continues hands its state to the remaining rounds. -/
theorem run_iterate_inl {exhausted : Stop} {body : β → Program Call Answer Stop (β ⊕ α)}
    {current next : β} {state after : σ}
    (round : run handler (body current) state = (.ok (.inl next), after)) (fuel : Nat) :
    run handler (iterate exhausted body (fuel + 1) current) state =
      run handler (iterate exhausted body fuel next) after := by
  rw [iterate_succ, run_bind_ok handler round]

/-- A round that delivers ends the loop, whatever fuel is left. -/
theorem run_iterate_inr {exhausted : Stop} {body : β → Program Call Answer Stop (β ⊕ α)}
    {current : β} {value : α} {state after : σ}
    (round : run handler (body current) state = (.ok (.inr value), after)) (fuel : Nat) :
    run handler (iterate exhausted body (fuel + 1) current) state = (.ok value, after) := by
  rw [iterate_succ, run_bind_ok handler round, run_ret]

/-- A completed loop either delivered in its first round or completed from the
state of its second. -/
theorem run_iterate_inv {exhausted : Stop} {body : β → Program Call Answer Stop (β ⊕ α)}
    {fuel : Nat} {current : β} {value : α} {state final : σ}
    (completed : run handler (iterate exhausted body fuel current) state = (.ok value, final)) :
    ∃ less outcome middle, fuel = less + 1 ∧
      run handler (body current) state = (.ok outcome, middle) ∧
      (match outcome with
        | .inl next => run handler (iterate exhausted body less next) middle = (.ok value, final)
        | .inr delivered => delivered = value ∧ middle = final) := by
  cases fuel with
  | zero => simp at completed
  | succ less =>
    rw [iterate_succ] at completed
    obtain ⟨outcome, middle, round, rest⟩ := run_bind_inv handler completed
    refine ⟨less, outcome, middle, rfl, round, ?_⟩
    cases outcome with
    | inl next => exact rest
    | inr delivered =>
      simp only [run_ret, Prod.mk.injEq, Except.ok.injEq] at rest
      exact rest

/-- A completed loop completes identically with any larger amount of fuel. -/
theorem run_iterate_more {exhausted : Stop} {body : β → Program Call Answer Stop (β ⊕ α)}
    {fuel : Nat} {current : β} {value : α} {state final : σ}
    (completed : run handler (iterate exhausted body fuel current) state = (.ok value, final))
    (more : Nat) :
    run handler (iterate exhausted body (fuel + more) current) state = (.ok value, final) := by
  induction fuel generalizing current state with
  | zero => simp at completed
  | succ fuel ih =>
    obtain ⟨less, outcome, middle, same, round, rest⟩ := run_iterate_inv handler completed
    obtain rfl : fuel = less := Nat.succ.inj same
    rw [Nat.add_right_comm]
    cases outcome with
    | inl next => rw [run_iterate_inl handler round, ih rest]
    | inr delivered =>
      obtain ⟨rfl, rfl⟩ := rest
      rw [run_iterate_inr handler round]

/-- More fuel lets a loop go on: its calls so far are the first ones made. -/
theorem log_iterate_prefix {exhausted : Stop} {body : β → Program Call Answer Stop (β ⊕ α)}
    (fuel more : Nat) (current : β) (state : σ) :
    log handler (iterate exhausted body fuel current) state <+:
      log handler (iterate exhausted body (fuel + more) current) state := by
  induction fuel generalizing current state with
  | zero => exact List.nil_prefix
  | succ fuel ih =>
    rw [Nat.add_right_comm, iterate_succ, iterate_succ, log_bind, log_bind]
    refine (List.prefix_append_right_inj _).mpr ?_
    rcases run handler (body current) state with ⟨reason | outcome, after⟩
    · exact List.prefix_rfl
    · cases outcome with
      | inl next => exact ih next after
      | inr value => exact List.prefix_rfl

/-! ## Agreement of two environments -/

/-- What every call keeps, every program keeps. -/
theorem run_keeps (invariant : σ → Prop)
    (keeps : ∀ request state, invariant state → invariant (handler request state).2)
    (program : Program Call Answer Stop α) (state : σ) (initially : invariant state) :
    invariant (run handler program state).2 := by
  induction program generalizing state with
  | ret value => exact initially
  | stop reason => exact initially
  | call request next ih => exact ih _ _ (keeps request state initially)

/-- A counter that no call lowers is not lowered by a program. -/
theorem run_rises (counter : σ → Nat)
    (rises : ∀ request state, counter state ≤ counter (handler request state).2)
    (program : Program Call Answer Stop α) (state : σ) :
    counter state ≤ counter (run handler program state).2 :=
  run_keeps handler (fun after => counter state ≤ counter after)
    (fun request _ soFar => Nat.le_trans soFar (rises request _)) program state (Nat.le_refl _)

/-- Two handlers whose calls agree unless a counter rises give the same run as
long as the counter ends where it began. The counter never falls, so a run that
leaves it unchanged contains no call on which they differ. -/
theorem run_agree {first second : Handler Call Answer σ} (counter : σ → Nat)
    (rises : ∀ request state, counter state ≤ counter (first request state).2)
    (agrees : ∀ request state, counter (first request state).2 = counter state →
      first request state = second request state)
    (program : Program Call Answer Stop α) (state : σ)
    (unchanged : counter (run first program state).2 = counter state) :
    run first program state = run second program state ∧
      log first program state = log second program state := by
  induction program generalizing state with
  | ret value => exact ⟨rfl, rfl⟩
  | stop reason => exact ⟨rfl, rfl⟩
  | call request next ih =>
    have later := run_rises first counter rises (next (first request state).1)
      (first request state).2
    have here := rises request state
    have total : counter (run first (next (first request state).1) (first request state).2).2 =
        counter state := unchanged
    have same := agrees request state (by omega)
    have rest := ih (first request state).1 (first request state).2 (by omega)
    simp only [run, log]
    rw [← same]
    exact ⟨rest.1, by rw [rest.2]⟩

/-- Two handlers that agree on the calls of a run give the same run. -/
theorem run_agree_log {first second : Handler Call Answer σ} (program : Program Call Answer Stop α)
    (state : σ) (agrees : ∀ moment ∈ log first program state,
      first moment.request moment.before = second moment.request moment.before) :
    run second program state = run first program state := by
  induction program generalizing state with
  | ret value => rfl
  | stop reason => rfl
  | call request next ih =>
    have same := agrees ⟨state, request, (first request state).1⟩ List.mem_cons_self
    dsimp only at same
    have rest := ih (first request state).1 (first request state).2 fun moment among =>
      agrees moment (List.mem_cons_of_mem _ among)
    simp only [run]
    rw [← same, rest]

/-! ## Programs that make only permitted calls -/

/-- Every call the program can make, whatever the replies, is permitted. -/
def Only (permitted : Call → Prop) : Program Call Answer Stop α → Prop
  | .ret _ => True
  | .stop _ => True
  | .call request next => permitted request ∧ ∀ reply, (next reply).Only permitted

variable {permitted : Call → Prop}

/-- A single call that is permitted. -/
theorem only_perform {request : Call} (allowed : permitted request) :
    (perform request : Program Call Answer Stop _).Only permitted :=
  ⟨allowed, fun _ => trivial⟩

/-- Two parts in a row make permitted calls only. -/
theorem only_bind {program : Program Call Answer Stop α} {rest : α → Program Call Answer Stop β}
    (first : program.Only permitted) (second : ∀ value, (rest value).Only permitted) :
    (program >>= rest).Only permitted := by
  induction program with
  | ret value => exact second value
  | stop reason => trivial
  | call request next ih => exact ⟨first.1, fun reply => ih reply (first.2 reply)⟩

/-- A loop makes permitted calls only if its rounds do. -/
theorem only_iterate {exhausted : Stop} {body : β → Program Call Answer Stop (β ⊕ α)}
    (round : ∀ current, (body current).Only permitted) (fuel : Nat) (current : β) :
    (iterate exhausted body fuel current).Only permitted := by
  induction fuel generalizing current with
  | zero => trivial
  | succ fuel ih =>
    refine only_bind (round current) fun outcome => ?_
    cases outcome with
    | inl next => exact ih next
    | inr value => trivial

/-- More calls may be permitted. -/
theorem only_mono {narrow : Call → Prop} (wider : ∀ request, narrow request → permitted request)
    {program : Program Call Answer Stop α} (allowed : program.Only narrow) :
    program.Only permitted := by
  induction program with
  | ret value => trivial
  | stop reason => trivial
  | call request next ih =>
    exact ⟨wider request allowed.1, fun reply => ih reply (allowed.2 reply)⟩

/-- The requests of a run are among the permitted ones. -/
theorem log_only {program : Program Call Answer Stop α} (allowed : program.Only permitted)
    (state : σ) : ∀ moment ∈ log handler program state, permitted moment.request := by
  induction program generalizing state with
  | ret value => simp [log]
  | stop reason => simp [log]
  | call request next ih =>
    intro moment among
    rcases List.mem_cons.mp among with rfl | later
    · exact allowed.1
    · exact ih _ (allowed.2 _) _ moment later

/-- Two handlers that agree on the permitted calls give a program of such calls
the same run. -/
theorem run_only_agree {first second : Handler Call Answer σ}
    (agrees : ∀ request state, permitted request → first request state = second request state)
    {program : Program Call Answer Stop α} (allowed : program.Only permitted) (state : σ) :
    run second program state = run first program state :=
  run_agree_log program state fun moment among =>
    agrees moment.request moment.before (log_only first allowed state moment among)

/-- What every permitted call keeps, a program of permitted calls keeps. -/
theorem run_only (invariant : σ → Prop)
    (keeps : ∀ request state, permitted request → invariant state →
      invariant (handler request state).2)
    {program : Program Call Answer Stop α} (allowed : program.Only permitted) (state : σ)
    (initially : invariant state) : invariant (run handler program state).2 := by
  induction program generalizing state with
  | ret value => exact initially
  | stop reason => exact initially
  | call request next ih =>
    exact ih _ (allowed.2 _) _ (keeps request state allowed.1 initially)

/-! ## Programs that always answer -/

/-- Every value the program can deliver, whatever the replies, is a good one, and it
never stops. -/
def Answers (good : α → Prop) : Program Call Answer Stop α → Prop
  | .ret value => good value
  | .stop _ => False
  | .call _ next => ∀ reply, (next reply).Answers good

/-- Two parts in a row deliver good values. -/
theorem answers_bind {good : α → Prop} {fine : β → Prop} {program : Program Call Answer Stop α}
    {rest : α → Program Call Answer Stop β} (first : program.Answers good)
    (second : ∀ value, good value → (rest value).Answers fine) : (program >>= rest).Answers fine := by
  induction program with
  | ret value => exact second value first
  | stop reason => exact first.elim
  | call request next ih => exact fun reply => ih reply (first reply)

/-- A run of such a program completes with a good value. -/
theorem run_answers {good : α → Prop} {program : Program Call Answer Stop α}
    (answers : program.Answers good) (state : σ) :
    ∃ value after, run handler program state = (.ok value, after) ∧ good value := by
  induction program generalizing state with
  | ret value => exact ⟨value, state, rfl, answers⟩
  | stop reason => exact answers.elim
  | call request next ih => exact ih _ (answers _) _

end Program

end Interaction
