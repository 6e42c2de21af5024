import InferenceEngine.Basic
import InferenceEngine.Library.Kernel
import InferenceEngine.Library.Softmax
import Mathlib.Order.WithBot

/-!
# Attention on the host

`attention` of `nn.cpp` on row-major buffers, in exact arithmetic: for every head and every query a pass over the
keys for the scores and the largest of them, one for the weights and their sum, and one over the values. The two
loops around it write every cell of the output once.
-/

namespace InferenceEngine

/-- A tensor of two dimensions and its row-major data. -/
structure Tensor2 (K : Type) where
  rows : Nat
  cols : Nat
  data : Nat → K

namespace Nn

variable {K : Type} [Field K] [LinearOrder K]

/-- The buffers of `attention`: one score for every key, one sum for every column of a head, and the output. -/
structure AttentionBuffers (K : Type) where
  scores : Nat → K
  acc : Nat → K
  out : Nat → K

def score (headDim : Nat) (scale : K) (qvec kvec : Nat → K) : K :=
  (List.range headDim).foldl (fun dot d => dot + qvec d * kvec d) 0 * scale

/-- The scores of the first `n` keys, and the largest of them. -/
def scorePass (score : Nat → K) (n : Nat) (scores : Nat → K) : (Nat → K) × WithBot K :=
  (List.range n).foldl (fun (scores, maxScore) j =>
    let dot := score j
    (Function.update scores j dot, max maxScore dot)) (scores, ⊥)

/-- The scores turn into weights, which are added up. -/
def weightPass (exp : K → K) (maxScore : K) (n : Nat) (scores : Nat → K) : (Nat → K) × K :=
  (List.range n).foldl (fun (scores, sum) j =>
    let e := exp (scores j - maxScore)
    (Function.update scores j e, sum + e)) (scores, 0)

/-- The weighted values are added up, column by column. -/
def valuePass (headDim : Nat) (invSum : K) (value : Nat → Nat → K) (n : Nat) (scores acc : Nat → K) : Nat → K :=
  (List.range n).foldl (fun acc j =>
    let p := scores j * invSum
    Loop.mapRange headDim (fun d a => a + p * value j d) acc) (Loop.mapRange headDim (fun _ _ => 0) acc)

section Head

variable (exp : K → K) (scale : K) (qp kp vp : Nat → K) (nHeads nKvHeads headDim queryOffset : Nat)

def attentionHead (b : AttentionBuffers K) (h i : Nat) : AttentionBuffers K :=
  let group := nHeads / nKvHeads
  let kvh := h / group
  let last := queryOffset + i
  let qvec := fun d => qp (i * nHeads * headDim + h * headDim + d)
  let kvec := fun j d => kp (j * nKvHeads * headDim + kvh * headDim + d)
  let vvec := fun j d => vp (j * nKvHeads * headDim + kvh * headDim + d)
  let (scores, maxScore) := scorePass (fun j => score headDim scale qvec (kvec j)) (last + 1) b.scores
  let (scores, sum) := weightPass exp (maxScore.unbotD 0) (last + 1) scores
  let invSum := 1 / sum
  let acc := valuePass headDim invSum vvec (last + 1) scores b.acc
  { scores, acc, out := Loop.storeRange (i * nHeads * headDim + h * headDim) headDim acc b.out }

end Head

def attention (exp sqrt : K → K) (q k v : Tensor2 K) (nHeads nKvHeads headDim queryOffset : Nat) :
    Except Error (Tensor2 K) :=
  let qLen := q.rows
  let total := k.rows
  if q.cols ≠ nHeads * headDim then
    .error (.invalidArgument "attention: q must be [q_len, n_heads*head_dim]")
  else if v.rows ≠ total ∨ k.cols ≠ nKvHeads * headDim ∨ v.cols ≠ nKvHeads * headDim then
    .error (.invalidArgument "attention: k/v shape mismatch")
  else if nKvHeads = 0 ∨ nHeads % nKvHeads ≠ 0 then
    .error (.invalidArgument "attention: n_heads must be a multiple of n_kv_heads")
  else if total < queryOffset + qLen then
    .error (.invalidArgument "attention: query_offset + q_len exceeds key length")
  else
    let scale := 1 / sqrt headDim
    let buffers : AttentionBuffers K := ⟨fun _ => 0, fun _ => 0, fun _ => 0⟩
    let buffers := (List.range nHeads).foldl (fun b h => (List.range qLen).foldl (fun b i =>
      attentionHead exp scale q.data k.data v.data nHeads nKvHeads headDim queryOffset b h i) b) buffers
    .ok ⟨qLen, nHeads * headDim, buffers.out⟩

/-! ### The passes -/

omit [Field K] in
theorem scorePass_scores (score : Nat → K) {n j : Nat} (hj : j < n) (scores : Nat → K) :
    (scorePass score n scores).1 j = score j := by
  have hpass : ∀ j < n, (scorePass score n scores).1 j = score j := by
    apply Loop.foldl_range (I := fun k (st : (Nat → K) × WithBot K) => ∀ j < k, st.1 j = score j)
    · exact fun j hj => absurd hj (Nat.not_lt_zero j)
    · intro k _ st hst j hj
      obtain hj | rfl := Nat.lt_succ_iff_lt_or_eq.mp hj
      · exact (Function.update_of_ne (Nat.ne_of_lt hj) _ _).trans (hst j hj)
      · exact Function.update_self _ _ _
  exact hpass j hj

/-- After `k` turns the first `k` scores are weights, and the others are scores still. -/
theorem weightPass_holds (E : Softmax.Exponential K) {score scores : Nat → K} {n : Nat} (maxScore : K)
    (h : ∀ j < n, scores j = score j) :
    (∀ j < n, (weightPass E.exp maxScore n scores).1 j = E.exp (score j - maxScore)) ∧
      (weightPass E.exp maxScore n scores).2 = Softmax.total E maxScore score (fun _ => 1) n := by
  have hpass := Loop.foldl_range (n := n) (a := (scores, (0 : K)))
    (f := fun (st : (Nat → K) × K) j =>
      (Function.update st.1 j (E.exp (st.1 j - maxScore)), st.2 + E.exp (st.1 j - maxScore)))
    (I := fun k st => (∀ j < n, st.1 j = if j < k then E.exp (score j - maxScore) else score j) ∧
      st.2 = Softmax.total E maxScore score (fun _ => 1) k) ?_ ?_
  · refine ⟨fun j hj => ?_, hpass.2⟩
    have hweight := hpass.1 j hj
    rwa [if_pos hj] at hweight
  · exact ⟨fun j hj => h j hj, rfl⟩
  · intro k hk st ⟨hscores, hsum⟩
    have hold : st.1 k = score k := by rw [hscores k hk, if_neg (Nat.lt_irrefl k)]
    constructor
    · intro j hj
      change Function.update st.1 k _ j = _
      by_cases hjk : j = k
      · subst hjk
        rw [Function.update_self, hold, if_pos (Nat.lt_succ_self j)]
      · rw [Function.update_of_ne hjk, hscores j hj]
        have hlt : j < k ↔ j < k + 1 := by omega
        simp only [hlt]
    · change st.2 + _ = _
      rw [hsum, hold, Softmax.total_succ, mul_one]

omit [LinearOrder K] in
theorem valuePass_apply {headDim d : Nat} (hd : d < headDim) (invSum : K) (value : Nat → Nat → K) (n : Nat)
    (scores acc : Nat → K) :
    valuePass headDim invSum value n scores acc d =
      ∑ j ∈ Finset.range n, scores j * invSum * value j d := by
  rw [valuePass, Loop.foldl_mapRange _ hd, Loop.mapRange_of_lt hd]
  exact Loop.foldl_add _ n

/-! ### The output -/

section Output

variable (E : Softmax.Exponential K) (scale : K) (qp kp vp : Nat → K)
  (nHeads nKvHeads headDim queryOffset : Nat)

/-- The score of query `i` and key `j` in head `h`. -/
def headScore (h i j : Nat) : K :=
  score headDim scale (fun d => qp (i * nHeads * headDim + h * headDim + d))
    fun d => kp (j * nKvHeads * headDim + h / (nHeads / nKvHeads) * headDim + d)

/-- Column `d` of head `h` of query `i`: the softmax average of the values the query may look at. -/
def headValue (h i d : Nat) : K :=
  Softmax.average E (headScore scale qp kp nHeads nKvHeads headDim h i)
    (fun j => vp (j * nKvHeads * headDim + h / (nHeads / nKvHeads) * headDim + d)) (queryOffset + i + 1)

theorem attentionHead_out (b : AttentionBuffers K) (h i : Nat) :
    (attentionHead E.exp scale qp kp vp nHeads nKvHeads headDim queryOffset b h i).out =
      Loop.storeRange (i * nHeads * headDim + h * headDim) headDim
        (headValue E scale qp kp vp nHeads nKvHeads headDim queryOffset h i) b.out := by
  obtain ⟨hweights, hsum⟩ := weightPass_holds E
    ((scorePass (headScore scale qp kp nHeads nKvHeads headDim h i) (queryOffset + i + 1) b.scores).2.unbotD 0)
    fun j hj => scorePass_scores (headScore scale qp kp nHeads nKvHeads headDim h i) hj b.scores
  rw [attentionHead]
  apply congrFun (Loop.storeRange_congr _ _)
  intro d hd
  rw [headValue, ← Softmax.average_of_normalised]
  apply (valuePass_apply hd _ _ _ _ _).trans
  apply Finset.sum_congr rfl
  intro j hj
  exact congrArg₂ (fun weight sum => weight * (1 / sum) *
    vp (j * nKvHeads * headDim + h / (nHeads / nKvHeads) * headDim + d))
    (hweights j (Finset.mem_range.mp hj)) hsum

end Output

/-- Number `idx` of the heads of all queries stores its columns. -/
def storeHead (qLen nHeads headDim : Nat) (value : Nat → Nat → Nat → K) (idx : Nat) (out : Nat → K) : Nat → K :=
  if idx < nHeads * qLen then
    Loop.storeRange (idx % qLen * nHeads * headDim + idx / qLen * headDim) headDim
      (value (idx / qLen) (idx % qLen)) out
  else out

omit [Field K] [LinearOrder K] in
theorem independent_storeHead (qLen nHeads headDim : Nat) (value : Nat → Nat → Nat → K) :
    Kernel.Independent (storeHead qLen nHeads headDim value) fun idx c => idx < nHeads * qLen ∧
      idx % qLen * nHeads * headDim + idx / qLen * headDim ≤ c ∧
      c < idx % qLen * nHeads * headDim + idx / qLen * headDim + headDim := by
  apply Kernel.independent_storeRange
  intro idx idx' c hidx hidx' hc hc'
  have hhead : ∀ {idx}, idx < nHeads * qLen →
      idx % qLen * nHeads * headDim + idx / qLen * headDim ≤ c ∧
        c < idx % qLen * nHeads * headDim + idx / qLen * headDim + headDim →
      c / headDim = idx % qLen * nHeads + idx / qLen ∧ idx / qLen < nHeads := by
    intro idx hidx ⟨hle, hlt⟩
    have hrow : idx % qLen * nHeads * headDim + idx / qLen * headDim =
        (idx % qLen * nHeads + idx / qLen) * headDim := (Nat.add_mul _ _ _).symm
    rw [hrow] at hle hlt
    constructor
    · obtain ⟨d, rfl⟩ := Nat.exists_eq_add_of_le hle
      exact Loop.index_div (Nat.add_lt_add_iff_left.mp hlt)
    · exact Nat.div_lt_of_lt_mul (by rwa [Nat.mul_comm])
  obtain ⟨hdiv, hlt⟩ := hhead hidx hc
  obtain ⟨hdiv', hlt'⟩ := hhead hidx' hc'
  obtain ⟨hmod, hquot⟩ := Loop.row_inj hlt hlt' (hdiv.symm.trans hdiv')
  rw [← Nat.div_add_mod idx qLen, hmod, hquot, Nat.div_add_mod]

omit [Field K] [LinearOrder K] in
/-- Whatever the order, every cell of the output holds the column it belongs to. -/
theorem launch_storeHead {qLen nHeads headDim : Nat} {value : Nat → Nat → Nat → K} {order : List Nat}
    (hnodup : order.Nodup) (hcover : ∀ idx < nHeads * qLen, idx ∈ order) {h i d : Nat} (hh : h < nHeads)
    (hi : i < qLen) (hd : d < headDim) (out : Nat → K) :
    Kernel.launch (storeHead qLen nHeads headDim value) order out (i * nHeads * headDim + h * headDim + d) =
      value h i d := by
  have hidx : h * qLen + i < nHeads * qLen := Loop.lt_work hh hi
  have hdiv : (h * qLen + i) / qLen = h := Loop.index_div hi
  have hmod : (h * qLen + i) % qLen = i := Loop.index_mod hi
  rw [(independent_storeHead qLen nHeads headDim value).launch_of_writes hnodup (hcover _ hidx), storeHead,
    if_pos hidx, hdiv, hmod, Loop.storeRange_apply hd]
  rw [hdiv, hmod]
  exact ⟨hidx, Nat.le_add_right _ d, Nat.add_lt_add_left hd _⟩

/-- **The output of `attention`**: the two loops store every head of every query once. -/
theorem attention_eq_ok (E : Softmax.Exponential K) (sqrt : K → K) {q k v : Tensor2 K}
    {nHeads nKvHeads headDim queryOffset : Nat} (hq : q.cols = nHeads * headDim) (hrows : v.rows = k.rows)
    (hk : k.cols = nKvHeads * headDim) (hv : v.cols = nKvHeads * headDim) (hpos : 0 < nKvHeads)
    (hdvd : nKvHeads ∣ nHeads) (htotal : queryOffset + q.rows ≤ k.rows) :
    ∃ out, attention E.exp sqrt q k v nHeads nKvHeads headDim queryOffset = .ok ⟨q.rows, nHeads * headDim, out⟩ ∧
      ∀ h < nHeads, ∀ i < q.rows, ∀ d < headDim, out (i * nHeads * headDim + h * headDim + d) =
        headValue E (1 / sqrt headDim) q.data k.data v.data nHeads nKvHeads headDim queryOffset h i d := by
  have hmod : nHeads % nKvHeads = 0 := Nat.mod_eq_zero_of_dvd hdvd
  have hshape : ¬(v.rows ≠ k.rows ∨ k.cols ≠ nKvHeads * headDim ∨ v.cols ≠ nKvHeads * headDim) := by
    simp [hrows, hk, hv]
  have hheads : ¬(nKvHeads = 0 ∨ nHeads % nKvHeads ≠ 0) := by omega
  rw [attention, if_neg (not_not_intro hq), if_neg hshape, if_neg hheads, if_neg (not_lt.mpr htotal)]
  refine ⟨_, rfl, ?_⟩
  rw [Loop.foldl_range_mul]
  intro h hh i hi d hd
  -- the scratch buffers go from turn to turn, but no turn reads what another left there
  have hout : ∀ (order : List Nat) (b : AttentionBuffers K), (∀ idx ∈ order, idx < nHeads * q.rows) →
      (order.foldl (fun b idx => attentionHead E.exp (1 / sqrt headDim) q.data k.data v.data nHeads nKvHeads
        headDim queryOffset b (idx / q.rows) (idx % q.rows)) b).out =
      Kernel.launch (storeHead q.rows nHeads headDim
        (headValue E (1 / sqrt headDim) q.data k.data v.data nHeads nKvHeads headDim queryOffset)) order b.out := by
    intro order
    induction order with
    | nil => exact fun b _ => rfl
    | cons idx order ih =>
      intro b hlt
      rw [List.foldl_cons, ih _ fun j hj => hlt j (List.mem_cons_of_mem idx hj), attentionHead_out,
        Kernel.launch_cons, storeHead, if_pos (hlt idx List.mem_cons_self)]
  rw [hout _ _ fun idx hidx => List.mem_range.mp hidx]
  exact launch_storeHead List.nodup_range (fun idx hidx => List.mem_range.mpr hidx) hh hi hd _

end Nn

end InferenceEngine
