import InferenceEngine.Cuda.PagedRun
import InferenceEngine.Library.Reduction
import Mathlib.Data.Prod.Lex

/-!
# The device argmax

One block per row. Its threads scan the row in strides and keep a pair of an index and a value each, and the
pairs are then reduced in shared memory. Ranked by value and then by the smaller index, a scan keeps its
highest pair and a merge the higher of two, so that the block is left with the first of the largest logits, as
the loop of the sampler on the host is.
-/

namespace InferenceEngine

open Exec

/-- How a launch of `argmax_kernel` goes: the order of its blocks, the order of the threads of a block in
every round, and what the shared memory of a block holds before. -/
structure ArgmaxLaunch (K : Type) where
  grid : Kernel.Schedule
  block : Nat → Kernel.Schedule
  shared : Nat → Nat → Nat × K

namespace CudaKernels

variable {K : Type} [LinearOrder K]

/-- The loop of a thread: the index and the value of the first largest logit it meets. `lowest` is
`-FLT_MAX`. -/
def scanThread (lowest : K) (r : Nat → K) (cols threads t : Nat) : Nat × K :=
  (Kernel.strided threads cols t).foldl (fun best j => if best.2 < r j then (j, r j) else best) (0, lowest)

/-- What a thread of a reduction round leaves in its cell. -/
def mergePair (own other : Nat × K) : Nat × K :=
  if own.2 < other.2 ∨ other.2 = own.2 ∧ other.1 < own.1 then other else own

/-- A block of `argmax_kernel`: the index it writes. -/
def argmaxBlock (lowest : K) (sched : Kernel.Schedule) (r : Nat → K) (cols threads : Nat)
    (shared : Nat → Nat × K) : Nat :=
  let scanned := Kernel.launch
    (fun t shared => Function.update shared t (scanThread lowest r cols threads t)) (sched.order 0 threads) shared
  (Kernel.reduceBlock mergePair sched threads 1 scanned 0).1

def argmaxKernel (lowest : K) (run : ArgmaxLaunch K) (threads : Nat) (logits : Nat → K) (rows cols : Nat)
    (out : Nat → Nat) : Nat → Nat :=
  Kernel.launch
    (fun row out => Function.update out row
      (argmaxBlock lowest (run.block row) (fun j => logits (row * cols + j)) cols threads (run.shared row)))
    (run.grid.order 0 rows) out

def argmax (lowest : K) (run : ArgmaxLaunch K) (logits : Nat → K) (rows cols : Nat) (out : Nat → Nat) :
    Nat → Nat :=
  if rows = 0 ∨ cols = 0 then out else argmaxKernel lowest run 256 logits rows cols out

/-! ### Pairs by rank -/

/-- A pair with a larger value ranks higher, and of two with the same value the one with the smaller index. -/
def rank (p : Nat × K) : Lex (K × Natᵒᵈ) := toLex (p.2, OrderDual.toDual p.1)

theorem rank_le {p p' : Nat × K} : rank p ≤ rank p' ↔ p.2 < p'.2 ∨ p.2 = p'.2 ∧ p'.1 ≤ p.1 :=
  Prod.Lex.toLex_le_toLex

theorem rank_lt {p p' : Nat × K} : rank p < rank p' ↔ p.2 < p'.2 ∨ p.2 = p'.2 ∧ p'.1 < p.1 :=
  Prod.Lex.toLex_lt_toLex

omit [LinearOrder K] in
theorem rank_injective : Function.Injective (rank (K := K)) := by
  intro p p' h
  obtain ⟨hvalue, hindex⟩ := Prod.mk.inj (toLex.injective h)
  exact Prod.ext (OrderDual.toDual.injective hindex) hvalue

theorem rank_mergePair (own other : Nat × K) : rank (mergePair own other) = max (rank own) (rank other) := by
  have hiff : (own.2 < other.2 ∨ other.2 = own.2 ∧ other.1 < own.1) ↔ rank own < rank other := by
    rw [rank_lt, eq_comm]
  rw [mergePair]
  split
  · rename_i h
    exact (max_eq_right (hiff.mp h).le).symm
  · rename_i h
    exact (max_eq_left (not_lt.mp fun hlt => h (hiff.mpr hlt))).symm

/-! ### The scan -/

variable {lowest : K} {r : Nat → K} {cols threads : Nat}

theorem scan_highest {js : List Nat} (hasc : js.Pairwise (· < ·)) {best : Nat × K} (hbest : ∀ j ∈ js, best.1 ≤ j) :
    let kept := js.foldl (fun best j => if best.2 < r j then (j, r j) else best) best
    (kept = best ∨ ∃ j ∈ js, kept = (j, r j)) ∧ rank best ≤ rank kept ∧ ∀ j ∈ js, rank (j, r j) ≤ rank kept := by
  induction js generalizing best with
  | nil => exact ⟨.inl rfl, le_rfl, fun j hj => absurd hj List.not_mem_nil⟩
  | cons j js ih =>
    rw [List.pairwise_cons] at hasc
    rw [List.foldl_cons]
    split
    · rename_i hlt
      have hnext : ∀ j' ∈ js, (j, r j).1 ≤ j' := fun j' hj' => (hasc.1 j' hj').le
      obtain ⟨hkept, hle, hall⟩ := ih hasc.2 hnext
      refine ⟨.inr ?_, (rank_le.mpr (.inl hlt)).trans hle, ?_⟩
      · obtain hkept | ⟨j', hj', hkept⟩ := hkept
        · exact ⟨j, List.mem_cons_self, hkept⟩
        · exact ⟨j', List.mem_cons_of_mem j hj', hkept⟩
      · intro j' hj'
        obtain rfl | hj' := List.mem_cons.mp hj'
        · exact hle
        · exact hall j' hj'
    · rename_i hlt
      obtain ⟨hkept, hle, hall⟩ := ih hasc.2 fun j' hj' => hbest j' (List.mem_cons_of_mem j hj')
      refine ⟨?_, hle, ?_⟩
      · exact hkept.imp_right fun ⟨j', hj', heq⟩ => ⟨j', List.mem_cons_of_mem j hj', heq⟩
      · intro j' hj'
        obtain rfl | hj' := List.mem_cons.mp hj'
        · -- an equal value further on does not displace the kept one
          refine le_trans (rank_le.mpr ?_) hle
          obtain h | h := (not_lt.mp hlt).lt_or_eq
          · exact .inl h
          · exact .inr ⟨h, hbest j' List.mem_cons_self⟩
        · exact hall j' hj'

/-- A thread keeps the highest pair of its part of the row, or the sentinel. -/
theorem scanThread_highest {t : Nat} (ht : t < threads) :
    (scanThread lowest r cols threads t = (0, lowest) ∨ ∃ j < cols, scanThread lowest r cols threads t = (j, r j)) ∧
      ∀ j < cols, j % threads = t → rank (j, r j) ≤ rank (scanThread lowest r cols threads t) := by
  have hfirst : ∀ j ∈ Kernel.strided threads cols t, (0, lowest).1 ≤ j := fun j _ => Nat.zero_le j
  obtain ⟨hkept, -, hall⟩ :=
    scan_highest (r := r) (Kernel.pairwise_strided (Nat.zero_lt_of_lt ht) cols t) hfirst
  constructor
  · exact hkept.imp_right fun ⟨j, hj, heq⟩ => ⟨j, ((Kernel.mem_strided ht).mp hj).1, heq⟩
  · exact fun j hj hmod => hall j ((Kernel.mem_strided ht).mpr ⟨hj, hmod⟩)

/-! ### The block -/

/-- A pair that ranks no lower than those of the row, and is the sentinel or one of them, has the first of the
largest values. -/
theorem firstMax_of_highest (hcols : 0 < cols) (hlowest : ∀ j < cols, lowest ≤ r j) {p : Nat × K}
    (hp : p = (0, lowest) ∨ ∃ j < cols, p = (j, r j)) (hall : ∀ j < cols, rank (j, r j) ≤ rank p) :
    Ranking.FirstMax r cols p.1 := by
  -- the sentinel can only win with the value of the first column
  have hmem : ∃ i < cols, p = (i, r i) := by
    obtain rfl | hp := hp
    · obtain h | h := rank_le.mp (hall 0 hcols)
      · exact absurd h (not_lt.mpr (hlowest 0 hcols))
      · exact ⟨0, hcols, Prod.ext rfl h.1.symm⟩
    · exact hp
  obtain ⟨i, hi, rfl⟩ := hmem
  apply Ranking.FirstMax.mk hi
  · intro j hj
    obtain h | h := rank_le.mp (hall j hj)
    · exact h.le
    · exact h.1.le
  · intro j hj
    obtain h | h := rank_le.mp (hall j (hj.trans hi))
    · exact h
    · exact absurd h.2 (not_le.mpr hj)

/-- **A block finds the first of the largest logits of its row.** -/
theorem firstMax_argmaxBlock (hcols : 0 < cols) (hlowest : ∀ j < cols, lowest ≤ r j) (k : Nat)
    (sched : Kernel.Schedule) (shared : Nat → Nat × K) :
    Ranking.FirstMax r cols (argmaxBlock lowest sched r cols (2 ^ k) shared) := by
  have hassoc : Std.Associative (mergePair (K := K)) :=
    Kernel.associative_of_rank rank_injective rank_mergePair
  have hcomm : Std.Commutative (mergePair (K := K)) :=
    Kernel.commutative_of_rank rank_injective rank_mergePair
  have hpos : 0 < 2 ^ k := Nat.two_pow_pos k
  have hstore : ∀ t ≤ 2 ^ k - 1, Kernel.launch
      (fun t shared => Function.update shared t (scanThread lowest r cols (2 ^ k) t)) (sched.order 0 (2 ^ k))
      shared t = scanThread lowest r cols (2 ^ k) t := by
    intro t ht
    rw [Kernel.launch_update sched (by omega)]
  rw [argmaxBlock, Kernel.reduceBlock_zero, Kernel.combine_congr hstore]
  obtain ⟨⟨t, ht, heq⟩, hall⟩ := Kernel.combine_of_rank rank_injective rank_mergePair
    (scanThread lowest r cols (2 ^ k)) (2 ^ k - 1)
  apply firstMax_of_highest hcols hlowest
  · rw [heq]
    exact (scanThread_highest (by omega)).1
  · intro j hj
    have hmod := Nat.mod_lt j hpos
    exact ((scanThread_highest hmod).2 j hj rfl).trans (hall (j % 2 ^ k) (by omega))

theorem firstMax_argmaxKernel (hcols : 0 < cols) (run : ArgmaxLaunch K) (k : Nat) (logits : Nat → K)
    {rows row : Nat} (hrow : row < rows) (hlowest : ∀ j < cols, lowest ≤ logits (row * cols + j))
    (out : Nat → Nat) :
    Ranking.FirstMax (fun j => logits (row * cols + j)) cols
      (argmaxKernel lowest run (2 ^ k) logits rows cols out row) := by
  rw [argmaxKernel, Kernel.launch_update run.grid hrow]
  exact firstMax_argmaxBlock hcols hlowest k (run.block row) (run.shared row)

theorem argmax_eq (hcols : 0 < cols) {rows : Nat} (hrows : 0 < rows) (run : ArgmaxLaunch K) (logits : Nat → K)
    (out : Nat → Nat) :
    argmax lowest run logits rows cols out = argmaxKernel lowest run (2 ^ 8) logits rows cols out := by
  have hne : ¬(rows = 0 ∨ cols = 0) := by omega
  rw [argmax, if_neg hne]
  rfl

end CudaKernels

namespace CudaModel

variable {K : Type} [Field K] [LinearOrder K] (M : CudaModel K)

/-- `CudaModel::Impl::forward_batch_argmax`: the logits stay on the device, and `kernels::argmax` picks a token
for every item. `tokens` is what the device array of the tokens holds before. -/
def Impl.forwardBatchArgmax (lowest : K) (run : ArgmaxLaunch K) (tokens : Nat → Nat) (items : List GpuBatchItem) :
    EStateM Error (GpuCaches K) (List Nat) := do
  let addresses ← items.mapM (cacheOf "CudaModel::forward_batch_argmax: null cache")
  let caches ← get
  let dLogits ← M.forwardBatchDevice (M.attendCache addresses) (items.map GpuBatchItem.tokens)
    (addresses.map fun address => (caches address).length)
  let dTokens :=
    CudaKernels.argmax lowest run (pointerTo dLogits) items.length M.config.vocabSize tokens
  let picked := (List.range items.length).map dTokens
  forM (addresses.zip items) fun (address, item) =>
    modify fun caches => Function.update caches address ((caches address).advance item.tokens.length)
  return picked

/-! ### Greedy tokens -/

variable {M}

omit [Field K] [LinearOrder K] in
/-- When every item has a cache, its message is never used. -/
theorem wp_cacheOf_congr {message message' : String} {items : List GpuBatchItem}
    {Q : List Nat → GpuCaches K → Prop} {E E' : Error → GpuCaches K → Prop} {caches : GpuCaches K}
    (hE : ∀ e s, ¬E e s) (h : wp (items.mapM (cacheOf message)) Q E caches) :
    wp (items.mapM (cacheOf message')) Q E' caches := by
  induction items generalizing Q caches with
  | nil => exact h
  | cons item items ih =>
    rw [List.mapM_cons, wp_bind] at h ⊢
    unfold cacheOf at h ⊢
    cases hcache : item.cache with
    | none =>
      simp only [hcache, wp_throw] at h
      exact absurd h (hE _ _)
    | some address =>
      simp only [hcache, wp_pure, wp_bind] at h ⊢
      exact ih h

omit [Field K] [LinearOrder K] in
theorem length_layoutFrom (pasts : List Nat) (lists : List (List Int)) (i total : Nat) :
    (layoutFrom pasts lists i total).length = lists.length := by
  induction lists generalizing i total with
  | nil => rfl
  | cons tokens lists ih => rw [layoutFrom, List.length_cons, List.length_cons, ih]

omit [Field K] [LinearOrder K] in
theorem wp_forwardBatchDevice_rows {S : Type} (attend : Attend S K) (lists : List (List Int)) (pasts : List Nat)
    (s : S) :
    wp (M.forwardBatchDevice attend lists pasts)
      (fun logits _ => logits.length = lists.length ∧ ∀ row ∈ logits, row.length = M.config.vocabSize)
      (fun _ _ => True) s := by
  rw [forwardBatchDevice]
  by_cases hempty : lists = []
  · simp only [hempty, if_true, wp_bind, wp_throw]
  by_cases hnil : [] ∈ lists
  · simp only [hempty, hnil, if_true, if_false, wp_bind, wp_throw]
  simp only [hempty, hnil, if_false, wp_bind]
  apply wp_mono (wp_true _) ?_ fun _ _ _ => trivial
  intro x s' _
  simp only [wp_pure, List.length_map, length_layoutFrom, true_and]
  intro row hrow
  obtain ⟨last, -, rfl⟩ := List.mem_map.mp hrow
  exact M.length_lmHead last

theorem argmax_pointerTo {lowest : K} {logits : Rows K} {cols : Nat} (hlen : ∀ row ∈ logits, row.length = cols)
    (hcols : 0 < cols) (hlowest : ∀ row ∈ logits, ∀ x ∈ row, lowest ≤ x) (run : ArgmaxLaunch K)
    (tokens : Nat → Nat) :
    (List.range logits.length).map
        (CudaKernels.argmax lowest run (pointerTo logits) logits.length cols tokens) =
      logits.map fun row => Sampler.argmax row cols := by
  apply List.ext_getElem
  · simp
  intro i hi _
  have hi' : i < logits.length := by simpa using hi
  rw [List.getElem_map, List.getElem_map, List.getElem_range]
  have hrow : ∀ j < cols, pointerTo logits (i * cols + j) = logits[i].getD j 0 := by
    intro j hj
    rw [pointerTo_row hlen hi' hj, List.getD_eq_getElem _ _ hi']
  have hmem : logits[i] ∈ logits := List.getElem_mem hi'
  have hge : ∀ j < cols, lowest ≤ pointerTo logits (i * cols + j) := by
    intro j hj
    rw [hrow j hj, List.getD_eq_getElem _ _ (by rwa [hlen _ hmem])]
    exact hlowest _ hmem _ (List.getElem_mem _)
  rw [CudaKernels.argmax_eq hcols (Nat.zero_lt_of_lt hi')]
  have hkernel := CudaKernels.firstMax_argmaxKernel hcols run 8 (pointerTo logits) hi' hge tokens
  exact (hkernel.congr hrow).unique (Sampler.firstMax_argmax logits[i] hcols)

/-- **The device picks what the host would pick** from the same logits, and leaves the same caches. -/
theorem impl_forwardBatchArgmax {lowest : K} {items : List GpuBatchItem} {caches caches' : GpuCaches K}
    {logits : Rows K} (hvocab : 0 < M.config.vocabSize) (h : M.forwardBatch items caches = .ok logits caches')
    (hlowest : ∀ row ∈ logits, ∀ x ∈ row, lowest ≤ x) (run : ArgmaxLaunch K) (tokens : Nat → Nat) :
    Impl.forwardBatchArgmax M lowest run tokens items caches =
      .ok (logits.map fun row => Sampler.argmax row M.config.vocabSize) caches' := by
  have hwp : wp (M.forwardBatch items) (fun l s => l = logits ∧ s = caches') (fun _ _ => False) caches :=
    wp_of_ok h ⟨rfl, rfl⟩
  rw [forwardBatch, forwardBatchCaches] at hwp
  simp only [wp_bind, wp_get] at hwp
  have hgoal : wp (Impl.forwardBatchArgmax M lowest run tokens items)
      (fun picked s => picked = logits.map (fun row => Sampler.argmax row M.config.vocabSize) ∧ s = caches')
      (fun _ _ => False) caches := by
    rw [Impl.forwardBatchArgmax]
    simp only [wp_bind, wp_get]
    apply wp_cacheOf_congr (fun _ _ hf => hf)
    apply wp_mono hwp ?_ fun _ _ hf => hf
    intro addresses s hs
    apply wp_mono (wp_and hs (wp_forwardBatchDevice_rows _ _ _ s)) ?_ fun _ _ hf => hf.1
    intro l s' ⟨hs', hcount, hlen⟩
    apply wp_mono hs' ?_ fun _ _ hf => hf
    intro _ s'' ⟨hl, hs''⟩
    subst hl
    rw [List.length_map] at hcount
    refine ⟨?_, hs''⟩
    rw [← hcount]
    exact argmax_pointerTo hlen hvocab hlowest run tokens
  obtain ⟨picked, s, hrun, rfl, rfl⟩ := wp_returns hgoal
  exact hrun

/-- **The device argmax is the host argmax.** A block of any power of two of threads leaves the first of the
largest logits of its row, in whatever order its threads act, and `forward_batch_argmax` returns the tokens
that greedy sampling draws from the logits of `forward_batch`. -/
theorem device_argmax_eq_host (M : CudaModel K) (lowest : K) (run : ArgmaxLaunch K) :
    (∀ (k rows cols : Nat) (logits : Nat → K) (out : Nat → Nat) (row : Nat), row < rows → 0 < cols →
      (∀ j < cols, lowest ≤ logits (row * cols + j)) →
      Ranking.FirstMax (fun j => logits (row * cols + j)) cols
          (CudaKernels.argmaxKernel lowest run (2 ^ k) logits rows cols out row) ∧
        CudaKernels.argmaxKernel lowest run (2 ^ k) logits rows cols out row =
          Sampler.argmax (readRow cols logits row) cols) ∧
    ∀ (items : List GpuBatchItem) (caches caches' : GpuCaches K) (logits : Rows K), 0 < M.config.vocabSize →
      M.forwardBatch items caches = .ok logits caches' → (∀ row ∈ logits, ∀ x ∈ row, lowest ≤ x) →
      ∀ tokens : Nat → Nat, ∃ picked,
        Impl.forwardBatchArgmax M lowest run tokens items caches = .ok picked caches' ∧
        ∀ (G : Type) (S : Sampler K G) (params : SamplingParams K) (g : G), params.temperature ≤ 0 →
          List.Forall₂ (fun row token => S.sample row M.config.vocabSize params g = .ok token g) logits picked := by
  constructor
  · intro k rows cols logits out row hrow hcols hlowest
    have hkernel := CudaKernels.firstMax_argmaxKernel hcols run k logits hrow hlowest out
    refine ⟨hkernel, ?_⟩
    have hread : ∀ j < cols, logits (row * cols + j) = (readRow cols logits row).getD j 0 := by
      intro j hj
      rw [List.getD_eq_getElem _ _ (by simpa [readRow] using hj)]
      simp [readRow]
    exact (hkernel.congr hread).unique (Sampler.firstMax_argmax _ hcols)
  · intro items caches caches' logits hvocab hrun hlowest tokens
    refine ⟨_, impl_forwardBatchArgmax hvocab hrun hlowest run tokens, ?_⟩
    intro G S params g htemp
    rw [List.forall₂_map_right_iff, List.forall₂_same]
    intro row _
    rw [Sampler.sample]
    simp only [Nat.ne_of_gt hvocab, htemp, if_true, if_false]
    rfl

theorem device_argmax_eq_host_tiny :
    let run : ArgmaxLaunch ℚ := ⟨.ascending, fun _ => .ascending, fun _ _ => (7, 7)⟩
    let items : List GpuBatchItem := [⟨some 0, [1, 2]⟩, ⟨some 1, [2]⟩]
    let caches : GpuCaches ℚ := fun _ => ⟨4, 0, fun _ _ => [], fun _ _ => []⟩
    CudaKernels.argmaxKernel (-9) run 4 (fun i => [3, 5, 1, 5, -9, 2].getD i 0) 1 6 (fun _ => 9) 0 = 1 ∧
      ∃ picked caches', Impl.forwardBatchArgmax PagedRun.tiny.toCudaModel (-9) run (fun _ => 9) items caches =
        .ok picked caches' := by
  intro run items caches
  have hlowest : ∀ j < 6, (-9 : ℚ) ≤ [3, 5, 1, 5, -9, 2].getD (0 * 6 + j) 0 := by decide +kernel
  have hrun : outcome (PagedRun.tiny.toCudaModel.forwardBatch items) caches = .ok [[0, 0, 1], [0, 1, 0]] := by
    decide +kernel
  obtain ⟨hkernel, hbatch⟩ := device_argmax_eq_host PagedRun.tiny.toCudaModel (-9) run
  obtain ⟨picked, hpicked, -⟩ := hbatch items caches _ _ (by decide) (ok_of_outcome hrun) (by decide +kernel)
    fun _ => 9
  refine ⟨?_, picked, _, hpicked⟩
  exact (hkernel 2 1 6 _ _ 0 (by decide) (by decide) hlowest).2.trans (by decide +kernel)

end CudaModel

end InferenceEngine
