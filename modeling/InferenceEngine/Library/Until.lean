import InferenceEngine.Library.Exec

/-!
# Stepping until something is done

A loop that makes a step as long as a test fails. Its rules: what every step keeps holds when the loop has
come to its end, and a loop whose steps take work off comes to its end.
-/

namespace Exec

variable {ε σ : Type}

/-- `while (!done) step();`, for so many turns at most. It says whether the test has held. -/
def untilDone (done : σ → Bool) (step : EStateM ε σ Unit) : Nat → EStateM ε σ Bool
  | 0 => return false
  | turns + 1 => do
    if done (← get) then
      return true
    step
    untilDone done step turns

variable {done : σ → Bool} {step : EStateM ε σ Unit} {I : σ → Prop} {E : ε → σ → Prop} {s : σ}

/-- The invariant rule. -/
theorem wp_untilDone (hstep : ∀ s, I s → done s = false → wp step (fun _ => I) E s) (hs : I s) (turns : Nat) :
    wp (untilDone done step turns) (fun ended s' => I s' ∧ (ended = true → done s' = true)) E s := by
  induction turns generalizing s with
  | zero =>
    rw [untilDone, wp_pure]
    exact ⟨hs, fun h => by cases h⟩
  | succ turns ih =>
    rw [untilDone, wp_bind, wp_get]
    cases hdone : done s with
    | true =>
      rw [if_pos rfl, wp_pure]
      exact ⟨hs, fun _ => hdone⟩
    | false =>
      rw [if_neg Bool.false_ne_true, wp_bind]
      exact wp_mono (hstep s hs hdone) (fun _ s' hs' => ih hs') fun _ _ he => he

/-- Steps that take work `w` off come to an end. -/
theorem wp_untilDone_total {w : σ → Nat}
    (hstep : ∀ s, I s → done s = false → wp step (fun _ s' => I s' ∧ w s' < w s) E s) (hs : I s) {turns : Nat}
    (hturns : w s < turns) :
    wp (untilDone done step turns) (fun ended s' => ended = true ∧ I s' ∧ done s' = true) E s := by
  induction turns generalizing s with
  | zero => exact absurd hturns (Nat.not_lt_zero _)
  | succ turns ih =>
    rw [untilDone, wp_bind, wp_get]
    cases hdone : done s with
    | true =>
      rw [if_pos rfl, wp_pure]
      exact ⟨rfl, hs, hdone⟩
    | false =>
      rw [if_neg Bool.false_ne_true, wp_bind]
      apply wp_mono (hstep s hs hdone) ?_ fun _ _ he => he
      intro _ s' hs'
      exact ih hs'.1 (Nat.lt_of_lt_of_le hs'.2 (Nat.lt_succ_iff.mp hturns))

/-- A loop goes along with another one when the steps do and the tests agree. -/
theorem Follows.untilDone {τ : Type} {R : σ → τ → Prop} {done' : τ → Bool} {step' : EStateM ε τ Unit}
    (hstep : Follows R Eq step step') (hdone : ∀ s t, R s t → done s = done' t) (turns : Nat) :
    Follows R Eq (untilDone done step turns) (untilDone done' step' turns) := by
  induction turns with
  | zero => exact follows_pure rfl
  | succ turns ih =>
    apply follows_get.bind
    intro s t hst
    rw [hdone s t hst]
    split
    · exact follows_pure rfl
    · exact hstep.bind fun _ _ _ => ih

theorem untilDone_of_le {turns turns' : Nat} (hle : turns ≤ turns') {s' : σ}
    (h : untilDone done step turns s = .ok true s') : untilDone done step turns' s = .ok true s' := by
  induction turns generalizing turns' s with
  | zero => cases h
  | succ turns ih =>
    obtain ⟨more, rfl⟩ : ∃ more, turns' = more + 1 := ⟨turns' - 1, by omega⟩
    rw [untilDone, get_bind] at h ⊢
    cases hdone : done s with
    | true =>
      rw [hdone] at h
      exact h
    | false =>
      rw [hdone, if_neg Bool.false_ne_true] at h
      rw [if_neg Bool.false_ne_true]
      cases hstep : step s with
      | error e t =>
        rw [bind_of_error hstep] at h
        cases h
      | ok _ t =>
        rw [bind_of_ok hstep] at h ⊢
        exact ih (Nat.le_of_succ_le_succ hle) h

end Exec
