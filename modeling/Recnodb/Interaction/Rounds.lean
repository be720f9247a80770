import Recnodb.Interaction.Program

/-!
# Rounds of a loop

A loop is followed round by round. It completes if and only if some round is not
reached, provided that every round completes. A rank that no round raises, and that
every round lowers except an idle one, leaves a loop that goes on forever with idle
rounds alone from some round on.
-/

namespace Interaction.Program

variable {Call : Type} {Answer : Call → Type} {Stop α β σ : Type}
variable {handler : Handler Call Answer σ} {body : β → Program Call Answer Stop (β ⊕ α)}
variable {current : β} {state : σ}

/-- Where a loop stands at the start of a round, if it goes on until then. -/
def roundAt (handler : Handler Call Answer σ) (body : β → Program Call Answer Stop (β ⊕ α)) :
    Nat → β → σ → Option (β × σ)
  | 0, current, state => some (current, state)
  | count + 1, current, state =>
      match run handler (body current) state with
      | (.ok (.inl next), after) => roundAt handler body count next after
      | _ => none

/-- A round that goes on is the first of those behind it. -/
theorem roundAt_succ {next : β} {after : σ}
    (round : run handler (body current) state = (.ok (.inl next), after)) (count : Nat) :
    roundAt handler body (count + 1) current state = roundAt handler body count next after := by
  rw [roundAt, round]

/-- The rounds behind a round are those of the loop that starts there. -/
theorem roundAt_add {there : β} {then_ : σ} {count : Nat}
    (reached : roundAt handler body count current state = some (there, then_)) (more : Nat) :
    roundAt handler body (count + more) current state = roundAt handler body more there then_ := by
  induction count generalizing current state with
  | zero =>
    obtain ⟨rfl, rfl⟩ := Prod.mk.inj (Option.some.inj reached)
    rw [Nat.zero_add]
  | succ count ih =>
    rw [Nat.add_right_comm]
    rw [roundAt] at reached ⊢
    split at reached
    · rename_i next after round
      exact ih reached
    · exact absurd reached.symm (Option.some_ne_none _)

/-- No round is reached behind one that is not. -/
theorem roundAt_ended {count : Nat} (ended : roundAt handler body count current state = none)
    (more : Nat) : roundAt handler body (count + more) current state = none := by
  induction count generalizing current state with
  | zero => exact absurd ended (Option.some_ne_none _)
  | succ count ih =>
    rw [Nat.add_right_comm]
    rw [roundAt] at ended ⊢
    split at ended
    · exact ih ended
    · rfl

/-- If every round completes, a loop completes exactly when it does not go on forever. -/
theorem iterate_completes_iff {exhausted : Stop}
    (rounds : ∀ current state, ∃ outcome after,
      run handler (body current) state = (.ok outcome, after)) :
    (∃ fuel value final,
      run handler (iterate exhausted body fuel current) state = (.ok value, final)) ↔
      ∃ count, roundAt handler body count current state = none := by
  constructor
  · rintro ⟨fuel, value, final, completed⟩
    refine ⟨fuel, ?_⟩
    induction fuel generalizing current state with
    | zero => simp at completed
    | succ fuel ih =>
      obtain ⟨less, outcome, between, same, round, rest⟩ := run_iterate_inv handler completed
      obtain rfl : fuel = less := Nat.succ.inj same
      rw [roundAt, round]
      cases outcome with
      | inl next => exact ih rest
      | inr delivered => rfl
  · rintro ⟨count, ended⟩
    induction count generalizing current state with
    | zero => exact absurd ended (Option.some_ne_none _)
    | succ count ih =>
      obtain ⟨outcome, after, round⟩ := rounds current state
      cases outcome with
      | inl next =>
        rw [roundAt_succ round] at ended
        obtain ⟨fuel, value, final, completed⟩ := ih ended
        exact ⟨fuel + 1, value, final, (run_iterate_inl handler round fuel).trans completed⟩
      | inr value => exact ⟨1, value, after, run_iterate_inr handler round 0⟩

section Ranked

variable {invariant : β → Prop} {idle : β → Prop} {rank : β → Nat}

/-- The rank at a later round is no higher. -/
theorem roundAt_rank
    (step : ∀ current state next after, invariant current →
      run handler (body current) state = (.ok (.inl next), after) →
      invariant next ∧ rank next ≤ rank current)
    (initially : invariant current) {count : Nat} {there : β} {then_ : σ}
    (reached : roundAt handler body count current state = some (there, then_)) :
    invariant there ∧ rank there ≤ rank current := by
  induction count generalizing current state with
  | zero =>
    obtain ⟨rfl, rfl⟩ := Prod.mk.inj (Option.some.inj reached)
    exact ⟨initially, Nat.le_refl _⟩
  | succ count ih =>
    rw [roundAt] at reached
    split at reached
    · rename_i next after round
      have kept := step _ _ _ _ initially round
      have later := ih kept.1 reached
      exact ⟨later.1, Nat.le_trans later.2 kept.2⟩
    · exact absurd reached.symm (Option.some_ne_none _)

/-- A loop that goes on forever is idle from some round on, by induction on the rank. -/
theorem idle_from_some_round
    (step : ∀ current state next after, invariant current →
      run handler (body current) state = (.ok (.inl next), after) →
      invariant next ∧ rank next ≤ rank current ∧ (¬ idle current → rank next < rank current))
    (initially : invariant current)
    (forever : ∀ count, roundAt handler body count current state ≠ none) :
    ∃ first, ∀ count, first ≤ count → ∃ there then_,
      roundAt handler body count current state = some (there, then_) ∧ idle there := by
  have weak : ∀ current state next after, invariant current →
      run handler (body current) state = (.ok (.inl next), after) →
      invariant next ∧ rank next ≤ rank current :=
    fun current state next after holds round =>
      ⟨(step current state next after holds round).1, (step current state next after holds round).2.1⟩
  induction ranked : rank current using Nat.strongRecOn generalizing current state with
  | ind bound ih =>
    subst ranked
    by_cases always : ∀ count there then_,
        roundAt handler body count current state = some (there, then_) → idle there
    · refine ⟨0, fun count _ => ?_⟩
      obtain ⟨⟨there, then_⟩, reached⟩ := Option.ne_none_iff_exists'.mp (forever count)
      exact ⟨there, then_, reached, always count there then_ reached⟩
    · push Not at always
      obtain ⟨busy, there, then_, reached, working⟩ := always
      obtain ⟨holds, below⟩ := roundAt_rank weak initially reached
      have behind (count : Nat) : roundAt handler body (busy + count) current state =
          roundAt handler body count there then_ := roundAt_add reached count
      have onward := forever (busy + 1)
      rw [behind, roundAt] at onward
      split at onward
      · rename_i next after round
        have moved := step _ _ _ _ holds round
        have rest (count : Nat) : roundAt handler body (busy + (count + 1)) current state =
            roundAt handler body count next after :=
          (behind (count + 1)).trans (roundAt_succ round count)
        obtain ⟨first, idling⟩ := ih (rank next) (Nat.lt_of_lt_of_le (moved.2.2 working) below)
          moved.1 (fun count => by
            rw [← rest]
            exact forever _) rfl
        refine ⟨busy + (first + 1), fun count late => ?_⟩
        obtain ⟨extra, rfl⟩ := Nat.exists_eq_add_of_le late
        obtain ⟨there', then', reached', idles⟩ := idling (first + extra) (Nat.le_add_right _ _)
        refine ⟨there', then', ?_, idles⟩
        rw [← reached', ← rest]
        congr 1
        omega
      · exact absurd rfl onward

end Ranked

end Interaction.Program
