import Mathlib.Logic.Function.Basic
import Recnodb.Interaction.Program

/-!
# Threads

Programs that run on one state in any interleaving. A step takes any thread: it makes the
next call of its program, or delivers the value of its program and goes on with another
one. Nothing is assumed about the order.

A thread keeps a discipline if every call it makes is allowed in the phase it is in,
whatever the others did to the state in between. Phases are not part of the state: they
are read off the deeds of the thread. When what one thread is allowed is what the others
rely on, the disciplines hold in every interleaving, and an invariant of the whole is
proved one allowed deed at a time.
-/

namespace Interaction

open Program

/-- What a thread does at once: a call, or the delivery of a value. -/
inductive Deed (Call : Type) (Answer : Call → Type) (α σ : Type) where
  | call (moment : Moment Call Answer σ)
  | deliver (value : α)

/-- A deed of one of the threads. -/
structure Act (ι Call : Type) (Answer : Call → Type) (α σ : Type) where
  thread : ι
  deed : Deed Call Answer α σ

/-- The programs the threads have left, and the state they share. -/
structure Pool (ι Call : Type) (Answer : Call → Type) (Stop α σ : Type) where
  left : ι → Program Call Answer Stop α
  state : σ

section Runs

variable {ι Call : Type} {Answer : Call → Type} {Stop α σ : Type} [DecidableEq ι]
variable (handler : ι → Handler Call Answer σ) (again : ι → α → Program Call Answer Stop α)

/-- One step of a thread. A thread that delivered a value goes on with the next program, and one
that stopped has no step. -/
def Pool.step (pool : Pool ι Call Answer Stop α σ) (thread : ι) :
    Option (Act ι Call Answer α σ × Pool ι Call Answer Stop α σ) :=
  match pool.left thread with
  | .ret value =>
    some (⟨thread, .deliver value⟩,
      ⟨Function.update pool.left thread (again thread value), pool.state⟩)
  | .stop _ => none
  | .call request next =>
    let (reply, after) := handler thread request pool.state
    some (⟨thread, .call ⟨pool.state, request, reply⟩⟩,
      ⟨Function.update pool.left thread (next reply), after⟩)

/-- The interleavings from a pool: the acts so far, and the pool behind them. -/
inductive Interleaves (start : Pool ι Call Answer Stop α σ) :
    List (Act ι Call Answer α σ) → Pool ι Call Answer Stop α σ → Prop where
  | start : Interleaves start [] start
  | step {past : List (Act ι Call Answer α σ)} {pool after : Pool ι Call Answer Stop α σ}
      {act : Act ι Call Answer α σ} (thread : ι) (earlier : Interleaves start past pool)
      (turn : pool.step handler again thread = some (act, after)) :
      Interleaves start (past ++ [act]) after

/-- The interleaving that a schedule gives. A turn of a thread that stopped is skipped. -/
def schedule (pool : Pool ι Call Answer Stop α σ) :
    List ι → List (Act ι Call Answer α σ) × Pool ι Call Answer Stop α σ
  | [] => ([], pool)
  | thread :: turns =>
    match pool.step handler again thread with
    | none => schedule pool turns
    | some (act, after) =>
      let (later, last) := schedule after turns
      (act :: later, last)

variable {handler again}

/-- What follows an interleaving continues it. -/
theorem Interleaves.trans {start middle last : Pool ι Call Answer Stop α σ}
    {past later : List (Act ι Call Answer α σ)} (first : Interleaves handler again start past middle)
    (second : Interleaves handler again middle later last) :
    Interleaves handler again start (past ++ later) last := by
  induction second with
  | start =>
    rw [List.append_nil]
    exact first
  | step thread _ turn ih =>
    rw [← List.append_assoc]
    exact .step thread ih turn

/-- A schedule gives an interleaving. -/
theorem interleaves_schedule (pool : Pool ι Call Answer Stop α σ) (turns : List ι) :
    Interleaves handler again pool (schedule handler again pool turns).1
      (schedule handler again pool turns).2 := by
  induction turns generalizing pool with
  | nil => exact .start
  | cons thread turns ih =>
    rw [schedule]
    cases turn : pool.step handler again thread with
    | none => exact ih pool
    | some taken =>
      obtain ⟨act, after⟩ := taken
      exact Interleaves.trans (.step thread .start turn) (ih after)

/-- A step is a delivery or a call. -/
theorem Pool.step_cases {pool after : Pool ι Call Answer Stop α σ} {thread : ι}
    {act : Act ι Call Answer α σ} (turn : pool.step handler again thread = some (act, after)) :
    (∃ value, pool.left thread = .ret value ∧ act = ⟨thread, .deliver value⟩ ∧
      after = ⟨Function.update pool.left thread (again thread value), pool.state⟩) ∨
    ∃ request next, pool.left thread = .call request next ∧
      act = ⟨thread, .call ⟨pool.state, request, (handler thread request pool.state).1⟩⟩ ∧
      after = ⟨Function.update pool.left thread (next (handler thread request pool.state).1),
        (handler thread request pool.state).2⟩ := by
  rw [Pool.step] at turn
  cases here : pool.left thread with
  | ret value =>
    rw [here] at turn
    obtain ⟨rfl, rfl⟩ := Prod.mk.inj (Option.some.inj turn)
    exact .inl ⟨value, rfl, rfl, rfl⟩
  | stop reason =>
    rw [here] at turn
    exact absurd turn.symm (Option.some_ne_none _)
  | call request next =>
    rw [here] at turn
    obtain ⟨rfl, rfl⟩ := Prod.mk.inj (Option.some.inj turn)
    exact .inr ⟨request, next, rfl, rfl, rfl⟩

/-- An act of an interleaving is a step behind an interleaving of the acts in front of it. -/
theorem Interleaves.at_act {start pool : Pool ι Call Answer Stop α σ}
    {past : List (Act ι Call Answer α σ)}
    (interleaves : Interleaves handler again start past pool) {index : Nat}
    (within : index < past.length) :
    ∃ thread before after, Interleaves handler again start (past.take index) before ∧
      before.step handler again thread = some (past[index], after) := by
  induction interleaves with
  | start => exact absurd within (Nat.not_lt_zero _)
  | @step past before after act thread earlier turn ih =>
    rw [List.length_append, List.length_singleton] at within
    rcases Nat.lt_or_eq_of_le (Nat.lt_succ_iff.mp within) with inner | last
    · rw [List.take_append_of_le_length (Nat.le_of_lt inner), List.getElem_append_left inner]
      exact ih inner
    · subst last
      rw [List.take_left, List.getElem_concat_length rfl]
      exact ⟨thread, before, after, earlier, turn⟩

/-- What every call keeps, whatever it answers, holds in front of every call of an interleaving. -/
theorem Interleaves.unconditional {start pool : Pool ι Call Answer Stop α σ}
    {past : List (Act ι Call Answer α σ)} (invariant : σ → Prop)
    (kept : ∀ thread request state, invariant state → invariant (handler thread request state).2)
    (interleaves : Interleaves handler again start past pool) (initially : invariant start.state) :
    invariant pool.state ∧
      ∀ act ∈ past, ∀ moment, act.deed = .call moment → invariant moment.before := by
  induction interleaves with
  | start => exact ⟨initially, fun _ among => absurd among List.not_mem_nil⟩
  | @step past pool after act thread earlier turn ih =>
    obtain ⟨here, before⟩ := ih
    have now (holds : ∀ moment, act.deed = .call moment → invariant moment.before) :
        ∀ one ∈ past ++ [act], ∀ moment, one.deed = .call moment → invariant moment.before := by
      intro one among
      rcases List.mem_append.mp among with old | new
      · exact before one old
      · exact List.mem_singleton.mp new ▸ holds
    rcases Pool.step_cases turn with ⟨value, -, rfl, rfl⟩ | ⟨request, next, -, rfl, rfl⟩
    · exact ⟨here, now fun _ call => nomatch call⟩
    · refine ⟨kept _ _ _ here, now ?_⟩
      rintro _ ⟨⟩
      exact here

end Runs

/-- A property of every item of a list and the items in front of it. -/
def Throughout {α : Type} (property : List α → α → Prop) (past : List α) : Prop :=
  ∀ index (within : index < past.length), property (past.take index) past[index]

instance {α : Type} (property : List α → α → Prop) [∀ past item, Decidable (property past item)]
    (past : List α) : Decidable (Throughout property past) :=
  inferInstanceAs (Decidable (∀ index (_ : index < past.length), _))

section Throughout

variable {α : Type} {property : List α → α → Prop} {past : List α} {item : α}

/-- What holds throughout holds in front of the last item. -/
theorem Throughout.front (holds : Throughout property (past ++ [item])) :
    Throughout property past := by
  intro index within
  have longer : index < (past ++ [item]).length := by
    rw [List.length_append]
    omega
  have front : (past ++ [item]).take index = past.take index :=
    List.take_append_of_le_length (Nat.le_of_lt within)
  have here := holds index longer
  rw [List.getElem_append_left within, front] at here
  exact here

/-- What holds throughout holds of every front part. -/
theorem Throughout.take (holds : Throughout property past) (count : Nat) :
    Throughout property (past.take count) := by
  intro index within
  rw [List.length_take] at within
  have here := holds index (by omega)
  rw [List.take_take, List.getElem_take, Nat.min_eq_left (by omega)]
  exact here

/-- What holds throughout holds of the last item. -/
theorem Throughout.last (holds : Throughout property (past ++ [item])) : property past item := by
  have longer : past.length < (past ++ [item]).length := by
    rw [List.length_append]
    exact Nat.lt_succ_self _
  have here := holds past.length longer
  rw [List.getElem_concat_length rfl, List.take_left] at here
  exact here

/-- One item more. -/
theorem Throughout.concat (holds : Throughout property past) (last : property past item) :
    Throughout property (past ++ [item]) := by
  intro index within
  rw [List.length_append, List.length_singleton] at within
  rcases Nat.lt_or_eq_of_le (Nat.lt_succ_iff.mp within) with inner | final
  · rw [List.take_append_of_le_length (Nat.le_of_lt inner), List.getElem_append_left inner]
    exact holds index inner
  · subst final
    rw [List.take_left, List.getElem_concat_length rfl]
    exact last

end Throughout

/-! ## Disciplines -/

/-- What a thread relies on, what is assumed of its calls and what it is allowed, by its phase. -/
structure Discipline (Call : Type) (Answer : Call → Type) (α σ φ : Type) where
  rely : σ → σ → Prop
  fine : φ → Moment Call Answer σ → Prop
  allowed : φ → Moment Call Answer σ → σ → Prop
  advance : φ → Deed Call Answer α σ → φ

/-- The assumption on a deed. A delivery needs none. -/
def Discipline.FineDeed {Call : Type} {Answer : Call → Type} {α σ φ : Type}
    (discipline : Discipline Call Answer α σ φ) (phase : φ) : Deed Call Answer α σ → Prop
  | .call moment => discipline.fine phase moment
  | .deliver _ => True

instance {Call : Type} {Answer : Call → Type} {α σ φ : Type}
    (discipline : Discipline Call Answer α σ φ)
    [∀ phase moment, Decidable (discipline.fine phase moment)] (phase : φ) :
    (deed : Deed Call Answer α σ) → Decidable (discipline.FineDeed phase deed)
  | .call moment => inferInstanceAs (Decidable (discipline.fine phase moment))
  | .deliver _ => isTrue trivial

section Keeping

variable {Call : Type} {Answer : Call → Type} {Stop α β γ σ φ : Type}

/-- The program keeps the discipline from this phase and state on, and what it delivers meets the
postcondition. -/
def Keeps (handler : Handler Call Answer σ) (discipline : Discipline Call Answer α σ φ) :
    Program Call Answer Stop β → φ → σ → (β → φ → σ → Prop) → Prop
  | .ret value, phase, state, post => post value phase state
  | .stop _, _, _, _ => True
  | .call request next, phase, state, post => ∀ now, discipline.rely state now →
      discipline.fine phase ⟨now, request, (handler request now).1⟩ →
      discipline.allowed phase ⟨now, request, (handler request now).1⟩ (handler request now).2 ∧
        Keeps handler discipline (next (handler request now).1)
          (discipline.advance phase (.call ⟨now, request, (handler request now).1⟩))
          (handler request now).2 post

variable {handler : Handler Call Answer σ} {discipline : Discipline Call Answer α σ φ}
variable {phase : φ} {state : σ}

namespace Keeps

/-- A weaker postcondition. -/
theorem mono {program : Program Call Answer Stop β} {post post' : β → φ → σ → Prop}
    (keeps : Keeps handler discipline program phase state post)
    (stronger : ∀ value phase state, post value phase state → post' value phase state) :
    Keeps handler discipline program phase state post' := by
  induction program generalizing phase state with
  | ret value => exact stronger _ _ _ keeps
  | stop reason => trivial
  | call request next ih =>
    intro now relied fine
    obtain ⟨allowed, rest⟩ := keeps now relied fine
    exact ⟨allowed, ih _ rest⟩

/-- The rule for one call. -/
theorem call {request : Call} {rest : Answer request → Program Call Answer Stop β}
    {post : β → φ → σ → Prop}
    (each : ∀ now, discipline.rely state now →
      discipline.fine phase ⟨now, request, (handler request now).1⟩ →
      discipline.allowed phase ⟨now, request, (handler request now).1⟩ (handler request now).2 ∧
        Keeps handler discipline (rest (handler request now).1)
          (discipline.advance phase (.call ⟨now, request, (handler request now).1⟩))
          (handler request now).2 post) :
    Keeps handler discipline (perform request >>= rest) phase state post := each

/-- The sequence rule. -/
theorem bind {program : Program Call Answer Stop β} {rest : β → Program Call Answer Stop γ}
    {middle : β → φ → σ → Prop} {post : γ → φ → σ → Prop}
    (first : Keeps handler discipline program phase state middle)
    (second : ∀ value phase state, middle value phase state →
      Keeps handler discipline (rest value) phase state post) :
    Keeps handler discipline (program >>= rest) phase state post := by
  induction program generalizing phase state with
  | ret value => exact second _ _ _ first
  | stop reason => trivial
  | call request next ih =>
    intro now relied fine
    obtain ⟨allowed, later⟩ := first now relied fine
    exact ⟨allowed, ih _ later⟩

/-- The loop rule: every round starts and goes on where the invariant holds. -/
theorem iterate (invariant : β → φ → σ → Prop) {exhausted : Stop}
    {body : β → Program Call Answer Stop (β ⊕ γ)} {post : γ → φ → σ → Prop}
    (round : ∀ current phase state, invariant current phase state →
      Keeps handler discipline (body current) phase state fun outcome phase state =>
        match outcome with
        | .inl next => invariant next phase state
        | .inr value => post value phase state)
    (fuel : Nat) {current : β} (initially : invariant current phase state) :
    Keeps handler discipline (iterate exhausted body fuel current) phase state post := by
  induction fuel generalizing current phase state with
  | zero => trivial
  | succ fuel ih =>
    apply bind (round current phase state initially)
    intro outcome phase state holds
    cases outcome with
    | inl next => exact ih holds
    | inr value => exact holds

/-- What every value of a program is like is known behind it. -/
theorem answers {good : β → Prop} {program : Program Call Answer Stop β} {post : β → φ → σ → Prop}
    (keeps : Keeps handler discipline program phase state post) (values : program.Answers good) :
    Keeps handler discipline program phase state
      fun value phase state => good value ∧ post value phase state := by
  induction program generalizing phase state with
  | ret value => exact ⟨values, keeps⟩
  | stop reason => trivial
  | call request next ih =>
    intro now relied fine
    obtain ⟨allowed, rest⟩ := keeps now relied fine
    exact ⟨allowed, ih _ rest (values _)⟩

/-- A program of permitted calls keeps what each of them keeps. -/
theorem only (invariant : φ → σ → Prop) {permitted : Call → Prop}
    {program : Program Call Answer Stop β} (calls : program.Only permitted)
    (each : ∀ phase state now request, permitted request → invariant phase state →
      discipline.rely state now →
      discipline.fine phase ⟨now, request, (handler request now).1⟩ →
      discipline.allowed phase ⟨now, request, (handler request now).1⟩ (handler request now).2 ∧
        invariant (discipline.advance phase (.call ⟨now, request, (handler request now).1⟩))
          (handler request now).2)
    (initially : invariant phase state) :
    Keeps handler discipline program phase state fun _ phase state => invariant phase state := by
  induction program generalizing phase state with
  | ret value => exact initially
  | stop reason => trivial
  | call request next ih =>
    intro now relied fine
    obtain ⟨allowed, holds⟩ := each phase state now request calls.1 initially relied fine
    exact ⟨allowed, ih _ (calls.2 _) holds⟩

end Keeps

end Keeping

/-! ## Two disciplines of one thread -/

section Both

variable {Call : Type} {Answer : Call → Type} {Stop α β σ φ ψ : Type}

/-- What two disciplines ask together. -/
def Discipline.both (one : Discipline Call Answer α σ φ) (other : Discipline Call Answer α σ ψ) :
    Discipline Call Answer α σ (φ × ψ) where
  rely before now := one.rely before now ∧ other.rely before now
  fine phase moment := one.fine phase.1 moment ∧ other.fine phase.2 moment
  allowed phase moment after := one.allowed phase.1 moment after ∧ other.allowed phase.2 moment after
  advance phase deed := (one.advance phase.1 deed, other.advance phase.2 deed)

variable {handler : Handler Call Answer σ} {one : Discipline Call Answer α σ φ}
variable {other : Discipline Call Answer α σ ψ} {phase : φ} {phase' : ψ} {state : σ}

/-- A program that keeps each of them keeps both. -/
theorem Keeps.both {program : Program Call Answer Stop β} {post : β → φ → σ → Prop}
    {post' : β → ψ → σ → Prop} (first : Keeps handler one program phase state post)
    (second : Keeps handler other program phase' state post') :
    Keeps handler (one.both other) program (phase, phase') state
      fun value phase state => post value phase.1 state ∧ post' value phase.2 state := by
  induction program generalizing phase phase' state with
  | ret value => exact ⟨first, second⟩
  | stop reason => trivial
  | call request next ih =>
    intro now relied fine
    obtain ⟨allowed, rest⟩ := first now relied.1 fine.1
    obtain ⟨allowed', rest'⟩ := second now relied.2 fine.2
    exact ⟨⟨allowed, allowed'⟩, ih _ rest rest'⟩

end Both

/-! ## Disciplines side by side -/

section Together

variable {ι Call : Type} {Answer : Call → Type} {Stop α σ φ : Type} [DecidableEq ι]
variable (handler : ι → Handler Call Answer σ) (again : ι → α → Program Call Answer Stop α)
variable (discipline : ι → Discipline Call Answer α σ φ) (resting : ι → α → φ → σ → Prop)

/-- The phase of a thread behind some acts. -/
def phaseOf (first : φ) (thread : ι) (past : List (Act ι Call Answer α σ)) : φ :=
  past.foldl (fun phase act =>
    if act.thread = thread then (discipline thread).advance phase act.deed else phase) first

/-- The assumptions on the calls hold of every call of some acts. -/
def AllFine (first : φ) (past : List (Act ι Call Answer α σ)) : Prop :=
  Throughout (fun past act =>
    (discipline act.thread).FineDeed (phaseOf discipline first act.thread past) act.deed) past

instance [∀ thread phase moment, Decidable ((discipline thread).fine phase moment)] (first : φ)
    (past : List (Act ι Call Answer α σ)) : Decidable (AllFine discipline first past) :=
  inferInstanceAs (Decidable (Throughout _ _))

/-- The disciplines fit together: what one thread is allowed, the others rely on, and a thread that
delivered a value keeps its discipline when it goes on. -/
structure Together : Prop where
  refl : ∀ thread state, (discipline thread).rely state state
  trans : ∀ thread first second third, (discipline thread).rely first second →
    (discipline thread).rely second third → (discipline thread).rely first third
  respects : ∀ thread other phase moment after, thread ≠ other →
    (discipline thread).allowed phase moment after → (discipline other).rely moment.before after
  again : ∀ thread value phase state, resting thread value phase state →
    Keeps (handler thread) (discipline thread) (again thread value)
      ((discipline thread).advance phase (.deliver value)) state (resting thread)

variable {handler again discipline resting} {first : φ}

/-- An act moves the phase of its own thread. -/
@[simp] theorem phaseOf_concat_self {thread : ι} {past : List (Act ι Call Answer α σ)}
    {deed : Deed Call Answer α σ} :
    phaseOf discipline first thread (past ++ [⟨thread, deed⟩]) =
      (discipline thread).advance (phaseOf discipline first thread past) deed := by
  simp [phaseOf]

/-- An act leaves the phases of the other threads. -/
@[simp] theorem phaseOf_concat_other {thread other : ι} {past : List (Act ι Call Answer α σ)}
    {deed : Deed Call Answer α σ} (different : other ≠ thread) :
    phaseOf discipline first thread (past ++ [⟨other, deed⟩]) =
      phaseOf discipline first thread past := by
  simp [phaseOf, different]

variable {start pool : Pool ι Call Answer Stop α σ} {past : List (Act ι Call Answer α σ)}

/-- The phase in two disciplines is the phase in each of them. -/
theorem phaseOf_both {ψ : Type} {other : ι → Discipline Call Answer α σ ψ} {second : ψ} {thread : ι} :
    phaseOf (fun thread => (discipline thread).both (other thread)) (first, second) thread past =
      (phaseOf discipline first thread past, phaseOf other second thread past) := by
  induction past generalizing first second with
  | nil => rfl
  | cons act past ih =>
    rw [phaseOf, phaseOf, phaseOf, List.foldl_cons, List.foldl_cons, List.foldl_cons]
    split
    · exact ih
    · exact ih

/-- Assumptions that hold for each of two disciplines hold for both. -/
theorem AllFine.both {ψ : Type} {other : ι → Discipline Call Answer α σ ψ} {second : ψ}
    (fine : AllFine discipline first past) (fine' : AllFine other second past) :
    AllFine (fun thread => (discipline thread).both (other thread)) (first, second) past := by
  intro index within
  have here := fine index within
  have here' := fine' index within
  rw [phaseOf_both]
  dsimp only at here here' ⊢
  revert here here'
  cases past[index].deed with
  | call moment => exact fun here here' => ⟨here, here'⟩
  | deliver value => exact fun _ _ => trivial

/-- In every interleaving, every thread keeps its discipline from some state on that it could rely
on. -/
theorem Interleaves.kept (together : Together handler again discipline resting)
    (initially : ∀ thread, Keeps (handler thread) (discipline thread) (start.left thread) first
      start.state (resting thread))
    (interleaves : Interleaves handler again start past pool) (fine : AllFine discipline first past)
    (thread : ι) : ∃ since, (discipline thread).rely since pool.state ∧
      Keeps (handler thread) (discipline thread) (pool.left thread)
        (phaseOf discipline first thread past) since (resting thread) := by
  induction interleaves generalizing thread with
  | start => exact ⟨start.state, together.refl _ _, initially thread⟩
  | @step past pool after act turned earlier turn ih =>
    obtain ⟨since, relied, keeps⟩ := ih (Throughout.front fine) turned
    rcases Pool.step_cases turn with ⟨value, here, rfl, rfl⟩ | ⟨request, next, here, rfl, rfl⟩
    · by_cases same : turned = thread
      · subst same
        rw [here] at keeps
        refine ⟨since, relied, ?_⟩
        rw [phaseOf_concat_self]
        dsimp only
        rw [Function.update_self]
        exact together.again _ _ _ _ keeps
      · obtain ⟨since', relied', keeps'⟩ := ih (Throughout.front fine) thread
        refine ⟨since', relied', ?_⟩
        rw [phaseOf_concat_other same]
        dsimp only
        rw [Function.update_of_ne (Ne.symm same)]
        exact keeps'
    · rw [here] at keeps
      obtain ⟨allowed, rest⟩ := keeps pool.state relied (Throughout.last fine)
      by_cases same : turned = thread
      · subst same
        refine ⟨_, together.refl _ _, ?_⟩
        rw [phaseOf_concat_self]
        dsimp only
        rw [Function.update_self]
        exact rest
      · obtain ⟨since', relied', keeps'⟩ := ih (Throughout.front fine) thread
        refine ⟨since', together.trans _ _ _ _ relied' ?_, ?_⟩
        · exact together.respects _ _ _ _ _ same allowed
        · rw [phaseOf_concat_other same]
          dsimp only
          rw [Function.update_of_ne (Ne.symm same)]
          exact keeps'

/-- The rule for the whole: what holds at the start and is kept by every allowed call and every
delivery holds in every interleaving. -/
theorem Interleaves.invariant (invariant : List (Act ι Call Answer α σ) → σ → Prop)
    (together : Together handler again discipline resting)
    (initially : ∀ thread, Keeps (handler thread) (discipline thread) (start.left thread) first
      start.state (resting thread))
    (holds : invariant [] start.state)
    (calls : ∀ past state thread request, invariant past state →
      (discipline thread).fine (phaseOf discipline first thread past)
        ⟨state, request, (handler thread request state).1⟩ →
      (discipline thread).allowed (phaseOf discipline first thread past)
        ⟨state, request, (handler thread request state).1⟩ (handler thread request state).2 →
      invariant (past ++ [⟨thread, .call ⟨state, request, (handler thread request state).1⟩⟩])
        (handler thread request state).2)
    (deliveries : ∀ past state thread value since, invariant past state →
      resting thread value (phaseOf discipline first thread past) since →
      (discipline thread).rely since state →
      invariant (past ++ [⟨thread, .deliver value⟩]) state)
    (interleaves : Interleaves handler again start past pool)
    (fine : AllFine discipline first past) : invariant past pool.state := by
  induction interleaves with
  | start => exact holds
  | @step past pool after act thread earlier turn ih =>
    obtain ⟨since, relied, keeps⟩ := earlier.kept together initially (Throughout.front fine) thread
    rcases Pool.step_cases turn with ⟨value, here, rfl, rfl⟩ | ⟨request, next, here, rfl, rfl⟩
    · rw [here] at keeps
      exact deliveries _ _ _ _ _ (ih (Throughout.front fine)) keeps relied
    · rw [here] at keeps
      have now := Throughout.last fine
      exact calls _ _ _ _ (ih (Throughout.front fine)) now (keeps pool.state relied now).1

end Together

end Interaction
