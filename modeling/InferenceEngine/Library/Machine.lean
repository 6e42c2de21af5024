import Mathlib.Logic.Basic
import Mathlib.Logic.Function.Iterate

/-!
# Machines and their invariants

A machine starts in one state and makes one transition per action. Which actions may come next can
depend on the state. A property of the start that every allowed transition keeps holds in every
reachable state, and a step that always takes work off a busy state leads to one that is not busy.
-/

/-- A state machine over states `S` and actions `A`. -/
structure Machine (S A : Type) where
  start : S
  next : S → A → S

namespace Machine

variable {S A : Type} (m : Machine S A) (allowed : S → A → Prop)

/-- The states allowed actions lead to. -/
inductive Reachable : S → Prop
  | start : Reachable m.start
  | next {s : S} {a : A} : Reachable s → allowed s a → Reachable (m.next s a)

/-- The invariant rule. -/
theorem Reachable.invariant {m : Machine S A} {allowed : S → A → Prop} {I : S → Prop} {s : S}
    (hs : m.Reachable allowed s) (hstart : I m.start)
    (hnext : ∀ s a, m.Reachable allowed s → I s → allowed s a → I (m.next s a)) : I s := by
  induction hs with
  | start => exact hstart
  | next hs ha ih => exact hnext _ _ hs ih ha

theorem Reachable.mono {m : Machine S A} {allowed allowed' : S → A → Prop} {s : S}
    (hs : m.Reachable allowed s) (h : ∀ s a, allowed s a → allowed' s a) : m.Reachable allowed' s := by
  induction hs with
  | start => exact .start
  | next _ ha ih => exact .next ih (h _ _ ha)

/-- A view of the states under which every step of one machine is a step of another. -/
theorem Reachable.map {T : Type} {m : Machine S A} {m' : Machine T A} {allowed : S → A → Prop}
    {allowed' : T → A → Prop} {view : S → T} {s : S} (hs : m.Reachable allowed s) (hstart : view m.start = m'.start)
    (hnext : ∀ s a, m'.Reachable allowed' (view s) → allowed s a →
      allowed' (view s) a ∧ view (m.next s a) = m'.next (view s) a) : m'.Reachable allowed' (view s) := by
  apply hs.invariant (I := fun s => m'.Reachable allowed' (view s))
  · rw [hstart]
    exact .start
  · intro s a _ ih ha
    obtain ⟨ha', hstep⟩ := hnext s a ih ha
    rw [hstep]
    exact .next ih ha'

def run (actions : List A) : S := actions.foldl m.next m.start

theorem run_concat (actions : List A) (a : A) : m.run (actions ++ [a]) = m.next (m.run actions) a := by
  rw [run, List.foldl_append]
  rfl

/-- The invariant rule for runs. -/
theorem run_invariant {I : S → Prop} (hstart : I m.start) (hnext : ∀ s a, I s → I (m.next s a))
    (actions : List A) : I (m.run actions) := by
  have hfold : ∀ (actions : List A) (s : S), I s → I (actions.foldl m.next s) := by
    intro actions
    induction actions with
    | nil => exact fun s hs => hs
    | cons a actions ih => exact fun s hs => ih _ (hnext s a hs)
  exact hfold actions m.start hstart

/-- A step that takes work `w` off every busy state (`B`) in which it can (`C`) leaves no busy state after as
many steps as there was work. -/
theorem not_busy_iterate {step : S → S} {I B C : S → Prop} {w : S → Nat}
    (hI : ∀ s, I s → I (step s)) (hidle : ∀ s, I s → ¬B s → ¬B (step s))
    (hpos : ∀ s, I s → B s → 0 < w s)
    (hlt : ∀ s, I s → B s → C s → w (step s) < w s) {k : Nat} {s : S} (hs : I s)
    (hgranted : ∀ j < k, B (step^[j] s) → C (step^[j] s)) (hwork : w s ≤ k) :
    ¬B (step^[k] s) := by
  induction k generalizing s with
  | zero =>
    intro hbusy
    have := hpos s hs hbusy
    omega
  | succ k ih =>
    rw [Function.iterate_succ_apply]
    by_cases hbusy : B s
    · have := hlt s hs hbusy (hgranted 0 (Nat.succ_pos k) hbusy)
      exact ih (hI s hs) (fun j hj => hgranted (j + 1) (Nat.succ_lt_succ hj)) (by omega)
    · have hrest : ∀ j, I (step^[j] (step s)) ∧ ¬B (step^[j] (step s)) := by
        intro j
        induction j with
        | zero => exact ⟨hI s hs, hidle s hs hbusy⟩
        | succ j ih =>
          rw [Function.iterate_succ_apply']
          exact ⟨hI _ ih.1, hidle _ ih.1 ih.2⟩
      exact (hrest k).2

/-- A step that, perhaps after a few turns, takes work `w` off or changes nothing comes to rest. -/
theorem exists_fixed {step : S → S} {I : S → Prop} {w : S → Nat} (hI : ∀ s, I s → I (step s))
    (h : ∀ s, I s → ∃ j, step (step^[j] s) = step^[j] s ∨ w (step^[j] s) < w s) {s : S} (hs : I s) :
    ∃ k, step (step^[k] s) = step^[k] s := by
  have hiterate : ∀ j s, I s → I (step^[j] s) := by
    intro j
    induction j with
    | zero => exact fun s hs => hs
    | succ j ih => exact fun s hs => ih _ (hI s hs)
  generalize hw : w s = n
  induction n using Nat.strongRecOn generalizing s with
  | ind n ih =>
    obtain ⟨j, hfixed | hlt⟩ := h s hs
    · exact ⟨j, hfixed⟩
    · obtain ⟨k, hk⟩ := ih _ (hw ▸ hlt) (hiterate j s hs) rfl
      rw [← Function.iterate_add_apply] at hk
      exact ⟨k + j, hk⟩

end Machine
