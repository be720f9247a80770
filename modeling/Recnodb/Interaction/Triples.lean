import Recnodb.Interaction.Program

/-!
# Triples

A total triple states that from every state meeting its precondition a program
completes, and what then holds of the value, the calls made and the last state.
A partial triple states the same of the runs that complete. The outcome of the
run from one state is a value or a stop, and what holds of it can be stated without
deciding first which of the two it is. The calls of a sequence are the calls of its
parts in order, so a postcondition may speak about them as well.
-/

namespace Interaction.Program

variable {Call : Type} {Answer : Call → Type} {Stop α β σ : Type}
variable {handler : Handler Call Answer σ} {pre pre' : σ → Prop}

/-- The program completes and establishes the postcondition. -/
def Ensures (handler : Handler Call Answer σ) (pre : σ → Prop)
    (program : Program Call Answer Stop α)
    (post : α → List (Moment Call Answer σ) → σ → Prop) : Prop :=
  ∀ state, pre state → ∃ value after,
    run handler program state = (.ok value, after) ∧ post value (log handler program state) after

namespace Ensures

theorem mono {program : Program Call Answer Stop α}
    {post post' : α → List (Moment Call Answer σ) → σ → Prop}
    (proved : Ensures handler pre program post) (weaker : ∀ state, pre' state → pre state)
    (stronger : ∀ value past state, post value past state → post' value past state) :
    Ensures handler pre' program post' := by
  intro state holds
  obtain ⟨value, after, completed, established⟩ := proved state (weaker state holds)
  exact ⟨value, after, completed, stronger _ _ _ established⟩

/-- The sequence rule. -/
theorem bind {program : Program Call Answer Stop α} {rest : α → Program Call Answer Stop β}
    {middle : α → List (Moment Call Answer σ) → σ → Prop}
    {post : β → List (Moment Call Answer σ) → σ → Prop}
    (first : Ensures handler pre program middle)
    (second : ∀ value past, Ensures handler (middle value past) (rest value)
      (fun result later state => post result (past ++ later) state)) :
    Ensures handler pre (program >>= rest) post := by
  intro state holds
  obtain ⟨value, between, firstRun, established⟩ := first state holds
  obtain ⟨result, after, secondRun, final⟩ := second value _ between established
  refine ⟨result, after, ?_, ?_⟩
  · rw [run_bind_ok handler firstRun, secondRun]
  · rw [log_bind_ok handler firstRun]
    exact final

end Ensures

/-- What holds if the program completes. -/
def Allows (handler : Handler Call Answer σ) (pre : σ → Prop)
    (program : Program Call Answer Stop α)
    (post : α → List (Moment Call Answer σ) → σ → Prop) : Prop :=
  ∀ state, pre state → ∀ value after,
    run handler program state = (.ok value, after) → post value (log handler program state) after

namespace Allows

/-- Nothing completes behind a stop. -/
theorem stop (reason : Stop) (post : α → List (Moment Call Answer σ) → σ → Prop) :
    Allows handler pre (.stop reason) post := by
  intro state _ result after completed
  simp at completed

theorem mono {program : Program Call Answer Stop α}
    {post post' : α → List (Moment Call Answer σ) → σ → Prop}
    (proved : Allows handler pre program post) (weaker : ∀ state, pre' state → pre state)
    (stronger : ∀ value past state, post value past state → post' value past state) :
    Allows handler pre' program post' :=
  fun state holds value after completed =>
    stronger _ _ _ (proved state (weaker state holds) value after completed)

/-- The sequence rule. -/
theorem bind {program : Program Call Answer Stop α} {rest : α → Program Call Answer Stop β}
    {middle : α → List (Moment Call Answer σ) → σ → Prop}
    {post : β → List (Moment Call Answer σ) → σ → Prop}
    (first : Allows handler pre program middle)
    (second : ∀ value past, Allows handler (middle value past) (rest value)
      (fun result later state => post result (past ++ later) state)) :
    Allows handler pre (program >>= rest) post := by
  intro state holds result after completed
  obtain ⟨value, between, firstRun, secondRun⟩ := run_bind_inv handler completed
  rw [log_bind_ok handler firstRun]
  exact second value _ between (first state holds value between firstRun) result after secondRun

end Allows

/-- What holds of the outcome of the run from one state: a value or a stop, the calls
made and the last state. -/
def Ends (handler : Handler Call Answer σ) (state : σ) (program : Program Call Answer Stop α)
    (post : Except Stop α → List (Moment Call Answer σ) → σ → Prop) : Prop :=
  post (run handler program state).1 (log handler program state) (run handler program state).2

namespace Ends

variable {state : σ}

theorem mono {program : Program Call Answer Stop α}
    {post post' : Except Stop α → List (Moment Call Answer σ) → σ → Prop}
    (proved : Ends handler state program post)
    (stronger : ∀ outcome past after, post outcome past after → post' outcome past after) :
    Ends handler state program post' :=
  stronger _ _ _ proved

/-- A call, and then what follows its reply. -/
theorem call {request : Call} {rest : Answer request → Program Call Answer Stop α}
    {post : Except Stop α → List (Moment Call Answer σ) → σ → Prop} {reply : Answer request}
    {after : σ} (answered : handler request state = (reply, after))
    (second : Ends handler after (rest reply)
      fun outcome past final => post outcome (⟨state, request, reply⟩ :: past) final) :
    Ends handler state (.call request rest) post := by
  obtain ⟨rfl, rfl⟩ := Prod.mk.inj answered.symm
  exact second

/-- The sequence rule: a stop of the first part is the outcome. -/
theorem bind {program : Program Call Answer Stop α} {rest : α → Program Call Answer Stop β}
    {post : Except Stop β → List (Moment Call Answer σ) → σ → Prop}
    {middle : Except Stop α → List (Moment Call Answer σ) → σ → Prop}
    (first : Ends handler state program middle)
    (value : ∀ value past between, middle (.ok value) past between →
      Ends handler between (rest value)
        fun outcome later final => post outcome (past ++ later) final)
    (stopped : ∀ reason past after, middle (.error reason) past after →
      post (.error reason) past after) :
    Ends handler state (program >>= rest) post := by
  unfold Ends at first ⊢
  rw [run_bind, log_bind]
  cases outcome : run handler program state with
  | mk result between =>
    rw [outcome] at first
    cases result with
    | ok delivered => exact value _ _ _ first
    | error reason =>
      rw [List.append_nil]
      exact stopped _ _ _ first

end Ends

end Interaction.Program
