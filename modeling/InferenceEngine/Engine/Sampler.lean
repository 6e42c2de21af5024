import InferenceEngine.Basic
import InferenceEngine.Library.Exec
import InferenceEngine.Library.Ranking
import Mathlib.Algebra.Field.Defs
import Mathlib.Order.Defs.LinearOrder
import Mathlib.Algebra.BigOperators.Group.List.Basic

/-!
# The sampler

Greedy when the temperature is not positive; otherwise temperature, top-k, top-p and an inverse-CDF
draw, in exact arithmetic. The exponential, the random numbers and the sort are parameters.
-/

namespace InferenceEngine

open Exec

/-- `SamplingParams`. -/
structure SamplingParams (K : Type) where
  temperature : K
  topK : Int
  topP : K

/-- What the sampler takes from outside: `exp`, the draws of `uniform_real_distribution(0, 1)` from a
generator of type `G`, and `std::sort` of the indices of a row by descending logit. The order of equal
logits is up to the sort. -/
structure Sampler (K G : Type) [Zero K] [LE K] where
  exp : K → K
  uniform : G → K × G
  sortDesc : Row K → List Nat
  sortDesc_perm : ∀ row, (sortDesc row).Perm (List.range row.length)
  sortDesc_pairwise : ∀ row, (sortDesc row).Pairwise fun a b => row.getD b 0 ≤ row.getD a 0

namespace Sampler

variable {K G : Type} [Field K] [LinearOrder K]

/-- `argmax`: the first index of a largest entry. -/
def argmax (logits : Row K) (vocab : Nat) : Nat :=
  (List.range' 1 (vocab - 1)).foldl
    (fun best i => if logits.getD best 0 < logits.getD i 0 then i else best) 0

/-- The top-p loop: one more than the index at which the cumulative probability reaches `topP`. -/
def nucleusFrom (topP : K) (keep : Nat) : List K → Nat → K → Nat
  | [], _, _ => keep
  | p :: probs, i, cumulative =>
    if topP ≤ cumulative + p then i + 1 else nucleusFrom topP keep probs (i + 1) (cumulative + p)

/-- The draw: the first token whose cumulative probability reaches the threshold, or the last one. -/
def pickFrom (threshold : K) (last : Nat) : List (K × Nat) → K → Nat
  | [], _ => last
  | (p, token) :: rest, cumulative =>
    if threshold ≤ cumulative + p then token else pickFrom threshold last rest (cumulative + p)

def sample (S : Sampler K G) (logits : Row K) (vocab : Nat) (params : SamplingParams K) :
    EStateM Error G Nat := do
  if vocab = 0 then
    throw (.invalidArgument "sample: vocab must be positive")
  if params.temperature ≤ 0 then
    return argmax logits vocab
  let order := S.sortDesc logits
  let keep := if 0 < params.topK ∧ params.topK < vocab then params.topK.toNat else vocab
  let invTemp := 1 / params.temperature
  let maxLogit := logits.getD (order.getD 0 0) 0 * invTemp
  let weights := (order.take keep).map fun i => S.exp (logits.getD i 0 * invTemp - maxLogit)
  let probs := weights.map (· / weights.sum)
  let nucleus := if params.topP < 1 then nucleusFrom params.topP keep probs 0 0 else keep
  let nucleusSum := (probs.take nucleus).sum
  let (u, rng) := S.uniform (← get)
  set rng
  let threshold := u * nucleusSum
  return pickFrom threshold (order.getD (nucleus - 1) 0) ((probs.zip order).take nucleus) 0

/-! ### The sampled token -/

theorem firstMax_argmax (logits : Row K) {vocab : Nat} (h : 0 < vocab) :
    Ranking.FirstMax (fun j => logits.getD j 0) vocab (argmax logits vocab) := by
  have hsearch := (Ranking.firstMax_one fun j => logits.getD j 0).search (vocab - 1)
  rwa [Nat.add_sub_cancel' h] at hsearch

theorem argmax_lt (logits : Row K) {vocab : Nat} (h : 0 < vocab) : argmax logits vocab < vocab :=
  (firstMax_argmax logits h).lt

theorem pickFrom_mem (threshold : K) (last : Nat) (xs : List (K × Nat)) (cumulative : K) :
    pickFrom threshold last xs cumulative = last ∨
      pickFrom threshold last xs cumulative ∈ xs.map Prod.snd := by
  induction xs generalizing cumulative with
  | nil => exact .inl rfl
  | cons x xs ih =>
    rw [pickFrom]
    split
    · exact .inr List.mem_cons_self
    · exact (ih _).imp_right (List.mem_cons_of_mem _)

/-- A sampled token is below `vocab`. The sampler throws on an empty vocabulary only. -/
theorem wp_sample (S : Sampler K G) {row : Row K} {vocab : Nat} (hlen : row.length ≤ vocab)
    (params : SamplingParams K) (g : G) :
    wp (S.sample row vocab params)
      (fun t _ => t < vocab ∧ (params.temperature ≤ 0 → t = argmax row vocab))
      (fun _ g' => vocab = 0 ∧ g' = g) g := by
  rw [sample]
  by_cases hvocab : vocab = 0
  · simp only [hvocab, if_true, wp_bind, wp_throw, and_self]
  have horder : ∀ i ∈ S.sortDesc row, i < vocab := fun i hi =>
    Nat.lt_of_lt_of_le (List.mem_range.mp ((S.sortDesc_perm row).subset hi)) hlen
  have hget : ∀ j, (S.sortDesc row).getD j 0 < vocab := by
    intro j
    rw [List.getD_eq_getElem?_getD]
    cases hj : (S.sortDesc row)[j]? with
    | none => exact Nat.pos_of_ne_zero hvocab
    | some i => exact horder i (List.mem_of_getElem? hj)
  by_cases htemp : params.temperature ≤ 0
  · simp only [hvocab, htemp, if_true, if_false, wp_pure]
    exact ⟨argmax_lt row (Nat.pos_of_ne_zero hvocab), fun _ => trivial⟩
  · simp only [hvocab, htemp, if_false, wp_bind, wp_pure, wp_get, wp_set, false_implies, and_true]
    generalize hn : (if params.topP < 1 then _ else _) = nucleus
    refine (pickFrom_mem _ _ _ _).elim (fun h => h ▸ hget _) fun h => ?_
    obtain ⟨x, hx, hxt⟩ := List.mem_map.mp h
    rw [← hxt]
    exact horder _ (List.of_mem_zip (List.mem_of_mem_take hx)).2

end Sampler

end InferenceEngine
