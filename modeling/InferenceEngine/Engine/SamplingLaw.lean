import InferenceEngine.Engine.Sampler
import InferenceEngine.Library.Prefixes
import Mathlib.Algebra.BigOperators.Field
import Mathlib.Algebra.Order.BigOperators.Group.List
import Mathlib.Algebra.Order.Field.Basic
import Mathlib.Algebra.Order.Ring.Rat
import Mathlib.Data.List.GetD
import Mathlib.Tactic.Linarith

/-!
# The law of the sampler

With a positive temperature the sampler draws from the normalised weights of the highest logits, cut down to the
shortest prefix that reaches `top_p`. Both of its loops look for the shortest prefix of a list that reaches a
threshold, so that a token is drawn for an interval of the random numbers whose length is its weight.
-/

namespace InferenceEngine

open Exec Prefixes

namespace Sampler

variable {K G : Type} [Field K] [LinearOrder K]

/-- The number of logits that top-k leaves. -/
def kept (topK : Int) (vocab : Nat) : Nat := if 0 < topK ∧ topK < vocab then topK.toNat else vocab

/-- The weights of the kept logits, from the highest logit down. -/
def weights (S : Sampler K G) (logits : Row K) (params : SamplingParams K) : List K :=
  let order := S.sortDesc logits
  let highest := logits.getD (order.getD 0 0) 0 / params.temperature
  (order.take (kept params.topK logits.length)).map fun i =>
    S.exp (logits.getD i 0 / params.temperature - highest)

def probs (S : Sampler K G) (logits : Row K) (params : SamplingParams K) : List K :=
  (S.weights logits params).map (· / (S.weights logits params).sum)

/-- The tokens that top-p leaves: the shortest non-empty prefix of the weights that reaches `topP`, or all of them
when `topP` is one or more. -/
structure Nucleus (topP : K) (ps : List K) (n : Nat) : Prop where
  reaches : topP < 1 → Reaches ps topP n
  all : 1 ≤ topP → n = ps.length

section Nucleus

variable {topP : K} {ps : List K} {n m : Nat}

theorem Nucleus.unique (h : Nucleus topP ps n) (h' : Nucleus topP ps m) : n = m := by
  obtain hlt | hle := lt_or_ge topP 1
  · exact (h.reaches hlt).unique (h'.reaches hlt)
  · exact (h.all hle).trans (h'.all hle).symm

theorem Nucleus.pos (h : Nucleus topP ps n) (hne : ps ≠ []) : 0 < n := by
  obtain hlt | hle := lt_or_ge topP 1
  · exact (h.reaches hlt).pos
  · rw [h.all hle]
    exact List.length_pos_iff.mpr hne

theorem Nucleus.le_length (h : Nucleus topP ps n) : n ≤ ps.length := by
  obtain hlt | hle := lt_or_ge topP 1
  · exact (h.reaches hlt).le_length
  · exact (h.all hle).le

end Nucleus

/-! ### The loops -/

section Loops

variable [IsStrictOrderedRing K] {ps : List K} {topP cumulative threshold : K} {keep i : Nat}

/-- The loop over the cumulative weights ends behind the shortest prefix that reaches `topP`. -/
theorem nucleusFrom_reaches (hne : ps ≠ []) (h : topP - cumulative ≤ ps.sum) :
    ∃ n, Reaches ps (topP - cumulative) n ∧ nucleusFrom topP keep ps i cumulative = i + n := by
  induction ps generalizing i cumulative with
  | nil => exact absurd rfl hne
  | cons p ps ih =>
    rw [nucleusFrom]
    split
    · rename_i hle
      exact ⟨1, reaches_one (sub_le_iff_le_add'.mpr hle), rfl⟩
    · rename_i hlt
      have hlt : p < topP - cumulative := lt_sub_iff_add_lt'.mpr (not_le.mp hlt)
      obtain ⟨hne', hrest⟩ := rest_of_lt h hlt
      rw [sub_sub] at hrest
      obtain ⟨n, hn, heq⟩ := ih (i := i + 1) hne' hrest
      rw [← sub_sub] at hn
      refine ⟨n + 1, hn.cons hlt, ?_⟩
      rw [heq]
      omega

/-- The draw ends at the shortest prefix that reaches the threshold. -/
theorem pickFrom_reaches (last : Nat) {xs : List (K × Nat)} (hne : xs ≠ [])
    (h : threshold - cumulative ≤ (xs.map Prod.fst).sum) :
    ∃ n, Reaches (xs.map Prod.fst) (threshold - cumulative) (n + 1) ∧
      (xs.map Prod.snd)[n]? = some (pickFrom threshold last xs cumulative) := by
  induction xs generalizing cumulative with
  | nil => exact absurd rfl hne
  | cons x xs ih =>
    obtain ⟨p, token⟩ := x
    rw [pickFrom]
    split
    · rename_i hle
      exact ⟨0, reaches_one (sub_le_iff_le_add'.mpr hle), rfl⟩
    · rename_i hlt
      have hlt : p < threshold - cumulative := lt_sub_iff_add_lt'.mpr (not_le.mp hlt)
      obtain ⟨hne', hrest⟩ := rest_of_lt h hlt
      rw [sub_sub] at hrest
      obtain ⟨n, hn, heq⟩ := ih (fun hnil => hne' (by rw [hnil, List.map_nil])) hrest
      rw [← sub_sub] at hn
      exact ⟨n + 1, hn.cons hlt, heq⟩

end Loops

/-! ### The weights -/

theorem kept_le (topK : Int) (vocab : Nat) : kept topK vocab ≤ vocab := by
  unfold kept
  split <;> omega

theorem kept_pos (topK : Int) {vocab : Nat} (h : 0 < vocab) : 0 < kept topK vocab := by
  unfold kept
  split <;> omega

variable (S : Sampler K G) (logits : Row K) (params : SamplingParams K)

theorem length_sortDesc : (S.sortDesc logits).length = logits.length := by
  rw [(S.sortDesc_perm logits).length_eq, List.length_range]

theorem length_weights : (S.weights logits params).length = kept params.topK logits.length := by
  rw [weights, List.length_map, List.length_take, S.length_sortDesc]
  exact Nat.min_eq_left (kept_le _ _)

theorem length_probs : (S.probs logits params).length = kept params.topK logits.length := by
  rw [probs, List.length_map, length_weights]

/-- With a positive temperature, `sample` walks the weights of the nucleus. -/
theorem sample_eq (S : Sampler K G) {logits : Row K} (hvocab : 0 < logits.length) {params : SamplingParams K}
    (htemp : 0 < params.temperature) (g : G) :
    let order := S.sortDesc logits
    let ps := S.probs logits params
    let nucleus := if params.topP < 1 then nucleusFrom params.topP ps.length ps 0 0 else ps.length
    S.sample logits logits.length params g = .ok (pickFrom ((S.uniform g).1 * (ps.take nucleus).sum)
      (order.getD (nucleus - 1) 0) ((ps.zip order).take nucleus) 0) (S.uniform g).2 := by
  intro order ps nucleus
  have hrun : wp (S.sample logits logits.length params) (fun token g' => token =
      pickFrom ((S.uniform g).1 * (ps.take nucleus).sum) (order.getD (nucleus - 1) 0)
        ((ps.zip order).take nucleus) 0 ∧ g' = (S.uniform g).2) (fun _ _ => False) g := by
    rw [sample]
    simp only [Nat.ne_of_gt hvocab, not_le.mpr htemp, if_false, wp_bind, wp_pure, wp_get, wp_set]
    have hkept : ps.length = if 0 < params.topK ∧ params.topK < logits.length then params.topK.toNat
        else logits.length := S.length_probs logits params
    simp only [mul_one_div, nucleus, hkept]
    exact ⟨rfl, trivial⟩
  obtain ⟨token, g', hok, rfl, rfl⟩ := wp_returns hrun
  exact hok

section Law

variable {S logits params} [IsStrictOrderedRing K]

theorem weights_sum_pos (hexp : ∀ x, 0 < S.exp x) (hne : 0 < logits.length) : 0 < (S.weights logits params).sum := by
  apply List.sum_pos
  · intro w hw
    obtain ⟨i, -, rfl⟩ := List.mem_map.mp hw
    exact hexp _
  · intro hnil
    have hlength := S.length_weights logits params
    rw [hnil] at hlength
    exact absurd hlength (Nat.ne_of_lt (kept_pos _ hne))

theorem probs_pos (params : SamplingParams K) (hexp : ∀ x, 0 < S.exp x) (hne : 0 < logits.length) :
    ∀ p ∈ S.probs logits params, 0 < p := by
  intro p hp
  obtain ⟨w, hw, rfl⟩ := List.mem_map.mp hp
  obtain ⟨i, -, rfl⟩ := List.mem_map.mp hw
  exact div_pos (hexp _) (weights_sum_pos hexp hne)

theorem probs_sum (hexp : ∀ x, 0 < S.exp x) (hne : 0 < logits.length) : (S.probs logits params).sum = 1 := by
  simp only [probs, div_eq_mul_inv]
  rw [List.sum_map_mul_right, List.map_id']
  exact mul_inv_cancel₀ (weights_sum_pos hexp hne).ne'

/-! ### The nucleus -/

theorem nucleus_nucleusFrom (topP : K) {ps : List K} (hne : ps ≠ []) (hsum : ps.sum = 1) :
    Nucleus topP ps (if topP < 1 then nucleusFrom topP ps.length ps 0 0 else ps.length) := by
  constructor
  · intro hlt
    rw [if_pos hlt]
    have hreach : topP - 0 ≤ ps.sum := by
      rw [sub_zero, hsum]
      exact hlt.le
    obtain ⟨n, hn, heq⟩ := nucleusFrom_reaches hne hreach
    rw [sub_zero] at hn
    rwa [heq, Nat.zero_add]
  · intro hle
    rw [if_neg (not_lt.mpr hle)]

/-! ### The law -/

omit [IsStrictOrderedRing K] in
/-- A token that is not among the first `n` has no higher logit than one that is. -/
theorem getD_le_of_not_mem {n i t : Nat} (hi : i < n) (hn : n ≤ logits.length) (ht : t < logits.length)
    (hout : t ∉ (S.sortDesc logits).take n) :
    logits.getD t 0 ≤ logits.getD ((S.sortDesc logits).getD i 0) 0 := by
  have hlength := S.length_sortDesc logits
  have hmem : t ∈ S.sortDesc logits := (S.sortDesc_perm logits).mem_iff.mpr (List.mem_range.mpr ht)
  obtain ⟨k, hk, rfl⟩ := List.getElem_of_mem hmem
  have hnk : n ≤ k := by
    by_contra hlt
    exact hout (List.mem_take_iff_getElem.mpr ⟨k, by omega, rfl⟩)
  rw [List.getD_eq_getElem _ _ (by omega : i < (S.sortDesc logits).length)]
  exact List.pairwise_iff_getElem.mp (S.sortDesc_pairwise logits) i k (by omega) hk (by omega)

/-- The random numbers that belong to a prefix of positive weights. The first prefix has zero as well. -/
theorem reaches_scaled_iff {ps : List K} (hpos : ∀ p ∈ ps, 0 < p) {u : K} (hu : 0 ≤ u) {j : Nat} :
    Reaches ps (u * ps.sum) (j + 1) ↔ j < ps.length ∧
      ((ps.take j).sum < u * ps.sum ∨ j = 0 ∧ u = 0) ∧ u * ps.sum ≤ (ps.take (j + 1)).sum := by
  rw [reaches_succ_iff hpos]
  apply and_congr_right
  intro hj
  apply and_congr_left
  intro _
  constructor
  · intro h
    obtain rfl | hlow := h
    · obtain hlt | heq := hu.lt_or_eq
      · have htotal : 0 < ps.sum := List.sum_pos ps hpos (List.ne_nil_of_length_pos hj)
        rw [List.take_zero, List.sum_nil]
        exact .inl (mul_pos hlt htotal)
      · exact .inr ⟨rfl, heq.symm⟩
    · exact .inl hlow
  · intro h
    obtain hlow | ⟨hzero, _⟩ := h
    · exact .inr hlow
    · exact .inl hzero

/-- A draw from the nucleus: the rank of its token is that of the shortest prefix that reaches the threshold. -/
theorem sample_rank (params : SamplingParams K) (hexp : ∀ x, 0 < S.exp x) (hvocab : 0 < logits.length)
    (htemp : 0 < params.temperature) (g : G) (hu : (S.uniform g).1 < 1) :
    ∃ n, Nucleus params.topP (S.probs logits params) n ∧ ∃ i < n,
      S.sample logits logits.length params g = .ok ((S.sortDesc logits).getD i 0) (S.uniform g).2 ∧
      Reaches ((S.probs logits params).take n) ((S.uniform g).1 * ((S.probs logits params).take n).sum) (i + 1) := by
  have hlength := S.length_probs logits params
  have hle : kept params.topK logits.length ≤ logits.length := kept_le _ _
  have hne : S.probs logits params ≠ [] := by
    intro hnil
    rw [hnil] at hlength
    exact absurd hlength (Nat.ne_of_lt (kept_pos _ hvocab))
  have hrun := S.sample_eq hvocab htemp g
  have hnucleus := nucleus_nucleusFrom params.topP hne (probs_sum hexp hvocab)
  dsimp only at hrun
  generalize (if params.topP < 1 then _ else _) = n at hrun hnucleus
  apply Exists.intro n
  apply And.intro hnucleus
  have hn := hnucleus.le_length
  have hfst : (((S.probs logits params).zip (S.sortDesc logits)).take n).map Prod.fst =
      (S.probs logits params).take n := by
    rw [List.map_take, List.map_fst_zip (by rw [hlength, S.length_sortDesc]; exact hle)]
  have htotal : 0 < ((S.probs logits params).take n).sum := by
    have hgrow := sum_take_lt (probs_pos params hexp hvocab) (hnucleus.pos hne) hn
    rwa [List.take_zero, List.sum_nil] at hgrow
  have hreach : (S.uniform g).1 * ((S.probs logits params).take n).sum - 0 ≤
      ((((S.probs logits params).zip (S.sortDesc logits)).take n).map Prod.fst).sum := by
    rw [hfst, sub_zero]
    exact mul_le_of_le_one_left htotal.le hu.le
  have hxs : ((S.probs logits params).zip (S.sortDesc logits)).take n ≠ [] := by
    intro hnil
    rw [hnil, List.map_nil] at hfst
    rw [← hfst, List.sum_nil] at htotal
    exact absurd htotal (lt_irrefl 0)
  obtain ⟨i, hi, htoken⟩ := pickFrom_reaches ((S.sortDesc logits).getD (n - 1) 0) hxs hreach
  rw [hfst, sub_zero] at hi
  have hin : i < n := by
    have := hi.le_length
    rw [List.length_take] at this
    omega
  refine ⟨i, hin, ?_, hi⟩
  have hrank : ((S.probs logits params).zip (S.sortDesc logits))[i]?.map Prod.snd = (S.sortDesc logits)[i]? := by
    have hi1 : i < (S.probs logits params).length := hin.trans_le hn
    have hi2 : i < (S.sortDesc logits).length := by
      rw [S.length_sortDesc]
      omega
    simp [hi1, hi2]
  rw [List.getElem?_map, List.getElem?_take_of_lt hin, hrank] at htoken
  rw [hrun, List.getD_eq_getElem?_getD (i := i), htoken, Option.getD_some]

/-- **The sampling law.** A token is drawn from the nucleus, for the random numbers in the interval of its weight. -/
theorem sample_law (S : Sampler K G) (hexp : ∀ x, 0 < S.exp x) (logits : Row K) (hvocab : 0 < logits.length)
    (params : SamplingParams K) (htemp : 0 < params.temperature) (g : G)
    (hu : 0 ≤ (S.uniform g).1 ∧ (S.uniform g).1 < 1) :
    let order := S.sortDesc logits
    let ps := S.probs logits params
    let u := (S.uniform g).1
    ps.length = kept params.topK logits.length ∧ ∃ n, Nucleus params.topP ps n ∧
      (∀ m, Nucleus params.topP ps m → m = n) ∧
      ∃ i < n, S.sample logits logits.length params g = .ok (order.getD i 0) (S.uniform g).2 ∧
        order.getD i 0 < logits.length ∧
        (∀ t < logits.length, t ∉ order.take n → logits.getD t 0 ≤ logits.getD (order.getD i 0) 0) ∧
        ∀ j < n, outcome (S.sample logits logits.length params) g = .ok (order.getD j 0) ↔
          ((ps.take j).sum < u * (ps.take n).sum ∨ j = 0 ∧ u = 0) ∧
            u * (ps.take n).sum ≤ (ps.take (j + 1)).sum := by
  intro order ps u
  obtain ⟨n, hnucleus, i, hi, hrun, hrank⟩ := sample_rank params hexp hvocab htemp g hu.2
  have hlength : ps.length = kept params.topK logits.length := S.length_probs logits params
  have hn : n ≤ ps.length := hnucleus.le_length
  have hle : n ≤ logits.length := (hn.trans_eq hlength).trans (kept_le _ _)
  have horder : order.length = logits.length := S.length_sortDesc logits
  have hnodup : order.Nodup := (S.sortDesc_perm logits).nodup_iff.mpr List.nodup_range
  have hget : ∀ j < n, ∃ hj : j < order.length, order.getD j 0 = order[j] := fun j hj =>
    ⟨by omega, List.getD_eq_getElem _ _ (by omega)⟩
  refine ⟨hlength, n, hnucleus, fun m hm => hm.unique hnucleus, i, hi, hrun, ?_, ?_, ?_⟩
  · obtain ⟨hi', heq⟩ := hget i hi
    rw [heq]
    exact List.mem_range.mp ((S.sortDesc_perm logits).mem_iff.mp (List.getElem_mem hi'))
  · exact fun t ht hout => getD_le_of_not_mem hi hle ht hout
  · intro j hj
    have hpos : ∀ p ∈ ps.take n, 0 < p := fun p hp => probs_pos params hexp hvocab p (List.mem_of_mem_take hp)
    have hlen : (ps.take n).length = n := List.length_take_of_le hn
    have hprefix : ∀ k ≤ n, (ps.take n).take k = ps.take k := by
      intro k hk
      rw [List.take_take, Nat.min_eq_left hk]
    -- the token has rank `j` when the shortest prefix that reaches the threshold has one more
    have hsame : outcome (S.sample logits logits.length params) g = .ok (order.getD j 0) ↔
        Reaches (ps.take n) (u * (ps.take n).sum) (j + 1) := by
      rw [outcome, hrun]
      constructor
      · intro heq
        obtain ⟨hj', hgetj⟩ := hget j hj
        obtain ⟨hi', hgeti⟩ := hget i hi
        have htoken : order[i] = order[j] := by
          rw [← hgeti, ← hgetj]
          exact Except.ok.inj heq
        rwa [← (List.Nodup.getElem_inj_iff hnodup).mp htoken]
      · intro hj'
        rw [Nat.succ_injective (hrank.unique hj')]
    rw [hsame, reaches_scaled_iff hpos hu.1, hlen, hprefix j hj.le, hprefix (j + 1) hj]
    exact and_iff_right hj

end Law

/-- A sampler whose generator is the next random number, with an exponential that is positive and increasing. -/
def linearSampler : Sampler ℚ ℚ where
  exp x := if x ≤ 0 then 1 / (1 - x) else 1 + x
  uniform g := (g, g / 2)
  sortDesc row := (List.range row.length).insertionSort fun a b => row.getD b 0 ≤ row.getD a 0
  sortDesc_perm row := List.perm_insertionSort _ _
  sortDesc_pairwise row := by
    have : Std.Total fun a b : Nat => row.getD b 0 ≤ row.getD a 0 := ⟨fun a b => le_total _ _⟩
    have : IsTrans Nat fun a b => row.getD b 0 ≤ row.getD a 0 := ⟨fun a b c hab hbc => hbc.trans hab⟩
    exact List.pairwise_insertionSort _ _

theorem sample_law_linear :
    let S := linearSampler
    let ps := S.probs [1, 3, 2, 0] ⟨1, 3, 3 / 4⟩
    ps = [6 / 11, 3 / 11, 2 / 11] ∧ Nucleus (3 / 4) ps 2 ∧
      outcome (S.sample [1, 3, 2, 0] 4 ⟨1, 3, 3 / 4⟩) (2 / 3) = .ok 1 ∧
      (ps.take 0).sum < (2 / 3) * (ps.take 2).sum ∧ (2 / 3) * (ps.take 2).sum ≤ (ps.take 1).sum := by
  intro S ps
  have hexp : ∀ x, 0 < S.exp x := by
    intro x
    change 0 < if x ≤ 0 then 1 / (1 - x) else 1 + x
    split
    · apply one_div_pos.mpr
      linarith
    · linarith
  have hps : ps = [6 / 11, 3 / 11, 2 / 11] := by decide +kernel
  have hnucleus : Nucleus (3 / 4) ps 2 := by
    rw [hps]
    exact ⟨fun _ => (reaches_succ_iff (by decide +kernel)).mpr (by decide +kernel),
      fun hle => absurd hle (by decide +kernel)⟩
  obtain ⟨_, n, _, hunique, _, _, _, _, _, hlaw⟩ := sample_law S hexp [1, 3, 2, 0] (by decide)
    ⟨1, 3, 3 / 4⟩ (by decide) (2 / 3) (by decide +kernel)
  obtain rfl := hunique 2 hnucleus
  have hrun : outcome (S.sample [1, 3, 2, 0] 4 ⟨1, 3, 3 / 4⟩) (2 / 3) = .ok 1 := by decide +kernel
  obtain ⟨hlow, hhigh⟩ := (hlaw 0 (by decide)).mp hrun
  exact ⟨hps, hnucleus, hrun, hlow.resolve_right (by decide +kernel), hhigh⟩

end Sampler

end InferenceEngine
