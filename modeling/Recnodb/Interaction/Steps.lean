import Recnodb.Interaction.Program

/-!
# Steps

The states that a run passes through, and what its calls change, one at a time. A run is held
to a relation between the states in front of each of its calls and behind it part by part.
-/

namespace Interaction.Program

variable {Call : Type} {Answer : Call → Type} {Stop α β σ : Type}

/-- A run passes through a state: it makes a call there, or it ends there. -/
def Passes (handler : Handler Call Answer σ) (program : Program Call Answer Stop α)
    (state now : σ) : Prop :=
  (∃ moment ∈ log handler program state, moment.before = now) ∨ (run handler program state).2 = now

/-- A call of the run leads from one state to another. -/
def Steps (handler : Handler Call Answer σ) (program : Program Call Answer Stop α)
    (state before after : σ) : Prop :=
  ∃ moment ∈ log handler program state, moment.before = before ∧
    (handler moment.request moment.before).2 = after

section Rules

variable {handler : Handler Call Answer σ} {state before after : σ}

/-- A step of a sequence is one of its first part or one of its second part. -/
theorem steps_bind {program : Program Call Answer Stop α} {rest : α → Program Call Answer Stop β}
    (steps : Steps handler (program >>= rest) state before after) :
    Steps handler program state before after ∨ ∃ value middle,
      run handler program state =
        (.ok value, middle) ∧ Steps handler (rest value) middle before after := by
  obtain ⟨moment, among, same, left⟩ := steps
  rw [log_bind] at among
  rcases List.mem_append.mp among with first | second
  · exact .inl ⟨moment, first, same, left⟩
  · split at second
    · rename_i value middle completed
      exact .inr ⟨value, middle, completed, moment, second, same, left⟩
    · exact absurd second List.not_mem_nil

/-- The first call of a program leads from the state the run starts in, and the others are steps of
the rest. -/
theorem steps_call {request : Call} {next : Answer request → Program Call Answer Stop α}
    (steps : Steps handler (.call request next) state before after) :
    before = state ∧ after = (handler request state).2 ∨
      Steps handler (next (handler request state).1) (handler request state).2 before after := by
  obtain ⟨moment, among, same, left⟩ := steps
  rcases List.mem_cons.mp among with rfl | later
  · exact .inl ⟨same.symm, left.symm⟩
  · exact .inr ⟨moment, later, same, left⟩

/-- A run passes through the state it starts in. -/
theorem passes_start {program : Program Call Answer Stop α} : Passes handler program state state := by
  cases program with
  | ret value => exact .inr rfl
  | stop reason => exact .inr rfl
  | call request next => exact .inl ⟨_, List.mem_cons_self, rfl⟩

/-- A run passes through the states of its steps. -/
theorem steps_passes {program : Program Call Answer Stop α}
    (steps : Steps handler program state before after) :
    Passes handler program state before ∧ Passes handler program state after := by
  induction program generalizing state with
  | ret value =>
    obtain ⟨moment, among, -⟩ := steps
    exact absurd among List.not_mem_nil
  | stop reason =>
    obtain ⟨moment, among, -⟩ := steps
    exact absurd among List.not_mem_nil
  | call request next ih =>
    have later {now : σ} (there : Passes handler (next (handler request state).1)
        (handler request state).2 now) : Passes handler (.call request next) state now := by
      refine there.imp_left ?_
      rintro ⟨moment, among, same⟩
      exact ⟨moment, List.mem_cons_of_mem _ among, same⟩
    rcases steps_call steps with ⟨rfl, rfl⟩ | rest
    · exact ⟨passes_start, later passes_start⟩
    · exact ⟨later (ih _ rest).1, later (ih _ rest).2⟩

/-- A state that a run passes through is the one it starts in, or a step leads there. -/
theorem passes_steps {program : Program Call Answer Stop α} {now : σ}
    (passes : Passes handler program state now) :
    now = state ∨ ∃ before, Steps handler program state before now := by
  induction program generalizing state with
  | ret value =>
    rcases passes with ⟨moment, among, -⟩ | ended
    · exact absurd among List.not_mem_nil
    · exact .inl ended.symm
  | stop reason =>
    rcases passes with ⟨moment, among, -⟩ | ended
    · exact absurd among List.not_mem_nil
    · exact .inl ended.symm
  | call request next ih =>
    have onward (later : Passes handler (next (handler request state).1)
        (handler request state).2 now) : ∃ before,
          Steps handler (.call request next) state before now := by
      rcases ih _ later with rfl | ⟨before, moment, among, same, left⟩
      · exact ⟨state, _, List.mem_cons_self, rfl, rfl⟩
      · exact ⟨before, moment, List.mem_cons_of_mem _ among, same, left⟩
    rcases passes with ⟨moment, among, same⟩ | ended
    · rcases List.mem_cons.mp among with rfl | later
      · exact .inl same.symm
      · exact .inr (onward (.inl ⟨moment, later, same⟩))
    · exact .inr (onward (.inr ended))

end Rules

end Interaction.Program
