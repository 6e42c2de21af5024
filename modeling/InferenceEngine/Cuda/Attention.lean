import InferenceEngine.Cuda.BlockManager
import InferenceEngine.Model.Attention
import Mathlib.Analysis.SpecialFunctions.Exp

/-!
# The device attention

`attention_kernel` runs one thread for every head of every query. A thread goes through the keys once and rescales
what it has added up whenever the running maximum moves. Its quotient is the softmax average the host computes in
two passes, so that the kernel leaves the host's output whatever the order of its threads.
-/

namespace InferenceEngine

namespace CudaKernels

variable {K : Type} [Field K] [LinearOrder K]

def onlineStep (exp : K → K) (headDim : Nat) (dot : K) (vvec : Nat → K) (o : Softmax.Online K) : Softmax.Online K :=
  let newMax := max o.max dot
  let correction := exp (o.max - newMax)
  let weight := exp (dot - newMax)
  { max := newMax
    sum := o.sum * correction + weight
    acc := Loop.mapRange headDim (fun d a => a * correction + weight * vvec d) o.acc }

def attentionThread (exp : K → K) (q k v : Nat → K) (qLen nHeads nKvHeads headDim queryOffset : Nat) (scale : K)
    (idx : Nat) (out : Nat → K) : Nat → K :=
  if nHeads * qLen ≤ idx then out
  else
    let h := idx / qLen
    let i := idx % qLen
    let group := nHeads / nKvHeads
    let kvh := h / group
    let last := queryOffset + i
    let qvec := fun d => q (i * nHeads * headDim + h * headDim + d)
    let kvec := fun j d => k (j * nKvHeads * headDim + kvh * headDim + d)
    let vvec := fun j d => v (j * nKvHeads * headDim + kvh * headDim + d)
    let seed : Softmax.Online K := ⟨-10 ^ 308, 0, fun _ => 0⟩
    let running := (List.range (last + 1)).foldl (fun o j =>
      onlineStep exp headDim (Nn.score headDim scale qvec (kvec j)) (vvec j) o) seed
    let invSum := 1 / running.sum
    Loop.storeRange (i * nHeads * headDim + h * headDim) headDim (fun d => running.acc d * invSum) out

/-- `kernels::attention`, its threads acting in a given order. -/
def attention (exp sqrt : K → K) (order : Nat → List Nat) (q k v out : Nat → K)
    (qLen total nHeads nKvHeads headDim queryOffset : Nat) : Except Error (Nat → K) :=
  if qLen = 0 ∨ total = 0 then .ok out
  else if 256 < headDim then .error (.runtimeError "cuda attention: head_dim exceeds supported maximum")
  else
    let scale := 1 / sqrt headDim
    .ok (Kernel.launch (attentionThread exp q k v qLen nHeads nKvHeads headDim queryOffset scale)
      (order (threadsFor (nHeads * qLen))) out)

/-! ### One pass over the keys -/

variable (E : Softmax.Exponential K)

/-- The loop over the keys keeps the totals of the keys it has gone through. -/
theorem holds_running (headDim n : Nat) (score : Nat → K) (value : Nat → Nat → K) (seed : K) :
    ((List.range n).foldl (fun o j => onlineStep E.exp headDim (score j) (value j) o)
      ⟨seed, 0, fun _ => 0⟩).Holds E score value headDim n := by
  apply Loop.foldl_range (I := fun k (o : Softmax.Online K) => o.Holds E score value headDim k)
  · exact Softmax.Online.holds_zero (fun _ _ => rfl) rfl
  · intro k _ o ho
    apply ho.step rfl
    intro d hd
    simp only [onlineStep, Loop.mapRange_of_lt hd]

theorem attentionThread_eq (scale : K) (q k v : Nat → K) (qLen nHeads nKvHeads headDim queryOffset idx : Nat)
    (out : Nat → K) :
    attentionThread E.exp q k v qLen nHeads nKvHeads headDim queryOffset scale idx out =
      Nn.storeHead qLen nHeads headDim
        (Nn.headValue E scale q k v nHeads nKvHeads headDim queryOffset) idx out := by
  rw [attentionThread, Nn.storeHead]
  by_cases hidx : idx < nHeads * qLen
  · rw [if_neg (not_le.mpr hidx), if_pos hidx]
    apply congrFun (Loop.storeRange_congr _ _)
    intro d hd
    exact (holds_running E headDim (queryOffset + idx % qLen + 1)
      (Nn.headScore scale q k nHeads nKvHeads headDim (idx / qLen) (idx % qLen))
      (fun j d => v (j * nKvHeads * headDim + idx / qLen / (nHeads / nKvHeads) * headDim + d)) _).average hd
  · rw [if_pos (not_lt.mp hidx), if_neg hidx]

theorem attention_eq_ok (sqrt : K → K) (sched : Kernel.Schedule) (launch : Nat) (q k v out : Nat → K)
    {qLen total : Nat} (nHeads nKvHeads : Nat) {headDim : Nat} (queryOffset : Nat) (hdim : headDim ≤ 256)
    (htotal : qLen ≤ total) :
    ∃ device, attention E.exp sqrt (sched.order launch) q k v out qLen total nHeads nKvHeads headDim queryOffset =
        .ok device ∧
      ∀ h < nHeads, ∀ i < qLen, ∀ d < headDim, device (i * nHeads * headDim + h * headDim + d) =
        Nn.headValue E (1 / sqrt headDim) q k v nHeads nKvHeads headDim queryOffset h i d := by
  by_cases hempty : qLen = 0
  · rw [attention, if_pos (.inl hempty)]
    exact ⟨out, rfl, fun h _ i hi => absurd hi (by omega)⟩
  · rw [attention, if_neg (by omega), if_neg (not_lt.mpr hdim)]
    refine ⟨_, rfl, ?_⟩
    intro h hh i hi d hd
    have hthread : attentionThread E.exp q k v qLen nHeads nKvHeads headDim queryOffset (1 / sqrt headDim) =
        Nn.storeHead qLen nHeads headDim
          (Nn.headValue E (1 / sqrt headDim) q k v nHeads nKvHeads headDim queryOffset) := by
      funext idx out
      exact attentionThread_eq E _ q k v qLen nHeads nKvHeads headDim queryOffset idx out
    rw [hthread]
    apply Nn.launch_storeHead (sched.nodup _ _) ?_ hh hi hd
    intro idx hidx
    exact sched.mem_order.mpr (hidx.trans_le (le_threadsFor _))

/-- **The device attention is the host attention**, cell for cell, whatever the order of the threads. -/
theorem attention_eq_host (sqrt : K → K) (sched : Kernel.Schedule) (launch : Nat) (q k v out : Nat → K)
    {qLen total nHeads nKvHeads headDim queryOffset : Nat} (hpos : 0 < nKvHeads) (hdvd : nKvHeads ∣ nHeads)
    (hdim : headDim ≤ 256) (htotal : queryOffset + qLen ≤ total) :
    ∃ host device,
      Nn.attention E.exp sqrt ⟨qLen, nHeads * headDim, q⟩ ⟨total, nKvHeads * headDim, k⟩
        ⟨total, nKvHeads * headDim, v⟩ nHeads nKvHeads headDim queryOffset = .ok host ∧
      attention E.exp sqrt (sched.order launch) q k v out qLen total nHeads nKvHeads headDim queryOffset =
        .ok device ∧
      host.rows = qLen ∧ host.cols = nHeads * headDim ∧
      ∀ c < qLen * (nHeads * headDim), device c = host.data c := by
  obtain ⟨host, hhost, hcells⟩ := Nn.attention_eq_ok E sqrt (q := ⟨qLen, nHeads * headDim, q⟩)
    (k := ⟨total, nKvHeads * headDim, k⟩) (v := ⟨total, nKvHeads * headDim, v⟩) rfl rfl rfl rfl hpos hdvd htotal
  obtain ⟨device, hdevice, hcells'⟩ := attention_eq_ok E sqrt sched launch q k v out nHeads nKvHeads queryOffset hdim
    (by omega : qLen ≤ total)
  refine ⟨_, device, hhost, hdevice, rfl, rfl, ?_⟩
  intro c hc
  obtain ⟨i, hi, h, hh, d, hd, rfl⟩ := Loop.exists_cell hc
  exact (hcells' h hh i hi d hd).trans (hcells h hh i hi d hd).symm

theorem attention_eq_host_tiny :
    let E : Softmax.Exponential ℝ := ⟨Real.exp, Real.exp_pos, Real.exp_add⟩
    let q : Nat → ℝ := fun c => c
    let k : Nat → ℝ := fun c => 2 * c
    let v : Nat → ℝ := fun c => 3 - c
    ∃ host device,
      Nn.attention E.exp Real.sqrt ⟨2, 4 * 2, q⟩ ⟨3, 2 * 2, k⟩ ⟨3, 2 * 2, v⟩ 4 2 2 1 = .ok host ∧
      attention E.exp Real.sqrt (Kernel.Schedule.ascending.order 0) q k v (fun _ => 7) 2 3 4 2 2 1 = .ok device ∧
      device 13 = host.data 13 := by
  intro E q k v
  obtain ⟨host, device, hhost, hdevice, -, -, hcells⟩ := attention_eq_host E Real.sqrt .ascending 0 q k v
    (fun _ => 7) (by decide : 0 < 2) (by decide : 2 ∣ 4) (by decide : 2 ≤ 256) (by decide : 1 + 2 ≤ 3)
  exact ⟨host, device, hhost, hdevice, hcells 13 (by decide)⟩

end CudaKernels

end InferenceEngine
