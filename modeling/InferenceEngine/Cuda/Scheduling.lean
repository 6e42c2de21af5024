import InferenceEngine.Cuda.Transparency
import InferenceEngine.Library.Until

/-!
# Arrival order on the device

A step of the device engine feeds the requests at the head of the line, in arrival order: each of them gets
one token, and those that are done leave. Nobody overtakes, so that no request starves, whatever arrives
while it waits.
-/

namespace InferenceEngine

open Exec

namespace CudaSequence

variable {K : Type}

/-- The tokens a sequence may still get. -/
def left (seq : CudaSequence K) : Nat :=
  if seq.status = .finished then 0 else seq.request.maxTokens.toNat - seq.output.length

theorem status_record_of_not (seq : CudaSequence K) (token : Int) (h : (seq.record token).2 = false) :
    (seq.record token).1.status = seq.status := by
  rw [record] at h ⊢
  split at h
  · cases h
  · rw [if_neg ‹_›]

end CudaSequence

namespace CudaEngineState

variable {K G : Type}

/-- The unfinished requests, the running ones first. -/
def line (s : CudaEngineState K G) : List Nat := s.running ++ s.waiting

end CudaEngineState

namespace CudaEngine

open CudaEngineState

variable {K G : Type} [Field K] [LinearOrder K] {E : CudaEngine K G} {s t s' : CudaEngineState K G}

/-! ### Admission -/

/-- The first of the line run, as many as a batch takes. -/
structure Entered (E : CudaEngine K G) (s t : CudaEngineState K G) : Prop where
  nextId : t.nextId = s.nextId
  line : t.line = s.line
  running : t.running = s.line.take E.maxBatch.toNat
  request : ∀ id, (t.sequences id).request = (s.sequences id).request
  output : ∀ id, (t.sequences id).output = (s.sequences id).output
  finished : ∀ id, id ∉ s.waiting → t.sequences id = s.sequences id

theorem take_line_of_full {running waiting : List Nat} {n : Nat} (h : running.length = n) :
    (running ++ waiting).take n = running := by
  rw [← h]
  exact List.take_left

theorem wp_admitWaiting_entered (hlayers : 0 < E.model.config.numHiddenLayers) (hdim : 0 < E.model.kvDim)
    (hs : Inv E s) (hroom : s.running.length ≤ E.maxBatch.toNat) {waiting : List Nat} (hwaiting : s.waiting = waiting) :
    wp (E.admitWaiting waiting) (fun _ => Entered E s) (fun _ _ => False) s := by
  induction waiting generalizing s with
  | nil =>
    rw [admitWaiting, wp_pure]
    have hline : s.line = s.running := by rw [line, hwaiting, List.append_nil]
    refine ⟨rfl, rfl, ?_, fun _ => rfl, fun _ => rfl, fun _ _ => rfl⟩
    rw [hline, List.take_of_length_le hroom]
  | cons id rest ih =>
    rw [admitWaiting]
    simp only [wp_bind, wp_get]
    split
    · rename_i hlt
      have hserved := hs.served id (hs.lt id (List.mem_append_right _ (by rw [hwaiting]; exact List.mem_cons_self)))
      have hcapacity : ¬((E.model.config.numHiddenLayers : Int) ≤ 0 ∨ (E.model.kvDim : Int) ≤ 0 ∨
          ((s.sequences id).request.prompt.length + (s.sequences id).request.maxTokens : Int) ≤ 0) := by
        have hmax := hserved.maxTokens
        omega
      simp only [GpuKVCache.create, if_neg hcapacity, wp_bind, wp_lift, wp_set]
      constructor
      · intro cache hcache
        cases hcache
        have hentered := hs.admitFirst hwaiting hlayers hdim
        apply wp_mono (ih hentered ?_ rfl) ?_ fun _ _ hf => hf
        · rw [List.length_append, List.length_singleton]
          omega
        · intro _ t ht
          have hline : ∀ running, running ++ [id] ++ rest = running ++ s.waiting := by
            intro running
            rw [hwaiting, List.append_assoc, List.singleton_append]
          have hsame := ht.line
          have hrunning := ht.running
          simp only [line, hline] at hsame hrunning
          have hupdate : ∀ i, (Function.update s.sequences id
              { s.sequences id with cache := some id, status := .running } i).request = (s.sequences i).request ∧
              (Function.update s.sequences id
                { s.sequences id with cache := some id, status := .running } i).output =
                  (s.sequences i).output := by
            intro i
            by_cases hi : i = id
            · rw [hi, Function.update_self]
              exact ⟨rfl, rfl⟩
            · rw [Function.update_of_ne hi]
              exact ⟨rfl, rfl⟩
          refine ⟨ht.nextId, hsame, hrunning, fun i => (ht.request i).trans (hupdate i).1,
            fun i => (ht.output i).trans (hupdate i).2, fun i hi => ?_⟩
          rw [hwaiting, List.mem_cons, not_or] at hi
          exact (ht.finished i hi.2).trans (Function.update_of_ne hi.1 _ _)
      · intro e he
        cases he
    · rename_i hfull
      rw [wp_pure]
      refine ⟨rfl, rfl, ?_, fun _ => rfl, fun _ => rfl, fun _ _ => rfl⟩
      rw [line, take_line_of_full (by omega)]

/-! ### A batch -/

/-- The running sequences `batch` have got a token each, and those that are done have left. -/
structure Recorded (E : CudaEngine K G) (batch : List Nat) (s s' : CudaEngineState K G) : Prop where
  nextId : s'.nextId = s.nextId
  waiting : s'.waiting = s.waiting
  running : s'.running = batch.filter fun id => (s'.sequences id).status ≠ .finished
  mem : ∀ id ∈ batch, ∃ token : Nat, token < E.model.config.vocabSize ∧
    s'.sequences id = ((s.sequences id).record token).1
  others : ∀ id, id ∉ batch → s'.sequences id = s.sequences id

theorem wp_runBatch_recorded (h : Inv E s) (hne : s.running ≠ []) :
    wp (E.runBatch s.running) (fun _ => Recorded E s.running s) (fun _ _ => False) s := by
  rw [runBatch]
  simp only [wp_bind, wp_get]
  apply wp_mono (h.wp_pickTokens hne) ?_ fun _ _ hf => hf
  intro tokens s' hs'
  obtain ⟨⟨caches, rng, rfl, -⟩, hpicked⟩ := hs'
  have hlen := hpicked.length_eq
  have hfst : (s.running.zip tokens).map Prod.fst = s.running := List.map_fst_zip (le_of_eq hlen)
  have hnodup : ((s.running.zip tokens).map Prod.fst).Nodup := by
    rw [hfst]
    exact h.nodup.of_append_left
  obtain ⟨sequences, hs, hothers, hrecorded, hflag⟩ :=
    recordAll_eq ({ s with caches, rng } : CudaEngineState K G) hnodup
  rw [hfst] at hothers
  dsimp only at hothers hrecorded hflag
  have hmem : ∀ id ∈ s.running, ∃ token : Nat, token < E.model.config.vocabSize ∧
      sequences id = ((s.sequences id).record token).1 ∧
      ((recordAll ({ s with caches, rng } : CudaEngineState K G) (s.running.zip tokens)).2 = false →
        ((s.sequences id).record token).2 = false) := by
    intro id hid
    rw [← hfst] at hid
    obtain ⟨⟨id, token⟩, hmem, rfl⟩ := List.mem_map.mp hid
    have htoken := (List.forall₂_iff_zip.mp hpicked).2 hmem
    exact ⟨token, htoken.lt, hrecorded _ hmem, fun hfalse => hflag hfalse _ hmem⟩
  rw [hs]
  split
  · rw [wp_set]
    refine ⟨rfl, rfl, rfl, fun id hid => ?_, hothers⟩
    obtain ⟨token, hlt, hseq, -⟩ := hmem id hid
    exact ⟨token, hlt, hseq⟩
  · rename_i hfalse
    rw [Bool.not_eq_true] at hfalse
    rw [wp_set]
    refine ⟨rfl, rfl, ?_, fun id hid => ?_, hothers⟩
    · symm
      rw [List.filter_eq_self]
      intro id hid
      obtain ⟨token, -, hseq, hflag⟩ := hmem id hid
      apply decide_eq_true
      change (sequences id).status ≠ .finished
      rw [hseq, CudaSequence.status_record_of_not _ _ (hflag hfalse), (h.running id hid).status]
      decide
    · obtain ⟨token, hlt, hseq, -⟩ := hmem id hid
      exact ⟨token, hlt, hseq⟩

/-! ### A step -/

/-- The requests a step feeds: the head of the line. -/
def batch (E : CudaEngine K G) (s : CudaEngineState K G) : List Nat := s.line.take E.maxBatch.toNat

/-- The requests of the batch have got a token each, the others none, and those that are done have left the
line. -/
structure Stepped (E : CudaEngine K G) (s s' : CudaEngineState K G) : Prop where
  nextId : s'.nextId = s.nextId
  request : ∀ id, (s'.sequences id).request = (s.sequences id).request
  line : s'.line = s.line.filter fun id => (s'.sequences id).status ≠ .finished
  length : s'.running.length ≤ E.maxBatch.toNat
  fed : ∀ id ∈ E.batch s, ∃ token, E.InVocab token ∧
    (s'.sequences id).output = (s.sequences id).output ++ [token]
  others : ∀ id, id ∉ E.batch s → (s'.sequences id).output = (s.sequences id).output
  finished : ∀ id, id ∉ s.line → s'.sequences id = s.sequences id

/-- What holds between two calls. -/
structure Ordered (E : CudaEngine K G) (s : CudaEngineState K G) : Prop where
  inv : Inv E s
  sorted : s.line.Pairwise (· < ·)
  length : s.running.length ≤ E.maxBatch.toNat

theorem Ordered.create (rng : G) : Ordered E (create rng : CudaEngineState K G) :=
  ⟨inv_create rng, .nil, Nat.zero_le _⟩

theorem waiting_not_finished (h : Inv E s) {id : Nat} (hid : id ∈ s.waiting) :
    (s.sequences id).status ≠ .finished := by
  rw [(h.waiting id hid).1]
  decide

/-- **A step** feeds the head of the line, and does not throw. -/
theorem Ordered.wp_step (hlayers : 0 < E.model.config.numHiddenLayers) (hdim : 0 < E.model.kvDim)
    (h : Ordered E s) :
    wp E.step (fun _ s' => Ordered E s' ∧ Stepped E s s') (fun _ _ => False) s := by
  have hstepped : wp E.step (fun _ s' => Inv E s' ∧ Stepped E s s') (fun _ _ => False) s := by
    rw [step]
    simp only [wp_bind, wp_get]
    apply wp_mono (wp_and (wp_admitWaiting h.inv rfl) (wp_admitWaiting_entered hlayers hdim h.inv h.length rfl))
      ?_ fun _ _ he => he.2
    intro _ t ht
    obtain ⟨hinv, hentered⟩ := ht
    have hwait : ∀ id ∈ t.waiting, (t.sequences id).status ≠ .finished :=
      fun id hid => waiting_not_finished hinv hid
    have hbatch : t.running = E.batch s := hentered.running
    have hlength : t.running.length ≤ E.maxBatch.toNat := by
      rw [hbatch, batch]
      exact List.length_take_le _ _
    split
    · rename_i hnil
      rw [wp_pure]
      refine ⟨hinv, hentered.nextId, hentered.request, ?_, hlength, ?_, fun id _ => hentered.output id, ?_⟩
      · rw [← hentered.line, line, hnil, List.nil_append, eq_comm, List.filter_eq_self]
        exact fun id hid => decide_eq_true (hwait id hid)
      · rw [← hbatch, hnil]
        exact fun id hid => absurd hid List.not_mem_nil
      · exact fun id hid => hentered.finished id fun hmem => hid (List.mem_append_right _ hmem)
    · rename_i hne
      apply wp_mono (wp_and (hinv.wp_runBatch hne) (wp_runBatch_recorded hinv hne)) ?_ fun _ _ hf => hf.1
      intro _ s' hs'
      obtain ⟨hinv', hr⟩ := hs'
      have hnot : ∀ id ∈ t.waiting, id ∉ t.running := fun id hid hrunning =>
        (List.nodup_append.mp hinv.nodup).2.2 id hrunning id hid rfl
      refine ⟨hinv', hr.nextId.trans hentered.nextId, fun id => ?_, ?_, ?_, ?_, ?_, ?_⟩
      · by_cases hid : id ∈ t.running
        · obtain ⟨token, -, hseq⟩ := hr.mem id hid
          rw [hseq, CudaSequence.record_request, hentered.request]
        · rw [hr.others id hid, hentered.request]
      · rw [← hentered.line, line, line, List.filter_append, hr.running, hr.waiting]
        congr 1
        rw [eq_comm, List.filter_eq_self]
        intro id hid
        rw [hr.others id (hnot id hid)]
        exact decide_eq_true (hwait id hid)
      · rw [hr.running]
        exact (List.length_filter_le _ _).trans hlength
      · intro id hid
        rw [← hbatch] at hid
        obtain ⟨token, hlt, hseq⟩ := hr.mem id hid
        refine ⟨token, ⟨Int.natCast_nonneg _, Int.ofNat_lt.mpr hlt⟩, ?_⟩
        rw [hseq, CudaSequence.record_output, hentered.output]
      · intro id hid
        rw [← hbatch] at hid
        rw [hr.others id hid, hentered.output]
      · intro id hid
        rw [← hentered.line] at hid
        have hrunning : id ∉ t.running := fun hmem => hid (List.mem_append_left _ hmem)
        rw [hr.others id hrunning]
        apply hentered.finished
        rw [hentered.line] at hid
        exact fun hmem => hid (List.mem_append_right _ hmem)
  apply wp_mono hstepped ?_ fun _ _ hf => hf
  intro _ s' hs'
  obtain ⟨hinv, hstep⟩ := hs'
  refine ⟨⟨hinv, ?_, hstep.length⟩, hstep⟩
  rw [hstep.line]
  exact h.sorted.sublist List.filter_sublist

omit [Field K] [LinearOrder K] in
theorem addRequest_eq {request : Request K} (hne : request.prompt ≠ []) (s : CudaEngineState K G) :
    addRequest request s = .ok s.nextId { s.setSequence s.nextId { request } with
      waiting := s.waiting ++ [s.nextId], nextId := s.nextId + 1 } := by
  rw [addRequest, if_neg hne]
  rfl

theorem Ordered.arrive (h : Ordered E s) {request : Request K} (hrequest : E.Served request) :
    Ordered E { s.setSequence s.nextId { request } with
      waiting := s.waiting ++ [s.nextId], nextId := s.nextId + 1 } := by
  have hinv := h.inv.addRequest hrequest
  rw [finalState, addRequest_eq hrequest.nonempty] at hinv
  refine ⟨hinv, ?_, h.length⟩
  change (s.running ++ (s.waiting ++ [s.nextId])).Pairwise (· < ·)
  rw [← List.append_assoc, List.pairwise_append]
  refine ⟨h.sorted, List.pairwise_singleton _ _, fun i hi j hj => ?_⟩
  rw [List.mem_singleton.mp hj]
  exact h.inv.lt i hi

theorem mem_line (h : Inv E s) {id : Nat} :
    id ∈ s.line ↔ id < s.nextId ∧ (s.sequences id).status ≠ .finished := by
  constructor
  · intro hid
    refine ⟨h.lt id hid, ?_⟩
    obtain hrunning | hwaiting := List.mem_append.mp hid
    · rw [(h.running id hrunning).status]
      decide
    · exact waiting_not_finished h hwaiting
  · intro hid
    by_contra hnot
    exact hid.2 (h.retired id hid.1 hnot).status

theorem length_lt_of_line (h : Inv E s) {id : Nat} (hid : id ∈ s.line) :
    (s.sequences id).output.length < (s.sequences id).request.maxTokens.toNat := by
  obtain hrunning | hwaiting := List.mem_append.mp hid
  · have := (h.running id hrunning).length_lt
    omega
  · have := (h.served id (h.lt id hid)).maxTokens
    rw [(h.waiting id hwaiting).2.1, List.length_nil]
    omega

namespace Stepped

variable (hstep : Stepped E s s') (hs : Inv E s)
include hstep hs

theorem left_le (id : Nat) : (s'.sequences id).left ≤ (s.sequences id).left := by
  by_cases hline : id ∈ s.line
  · have hunfinished := ((mem_line hs).mp hline).2
    have hle : (s.sequences id).output.length ≤ (s'.sequences id).output.length := by
      by_cases hid : id ∈ E.batch s
      · obtain ⟨token, -, hout⟩ := hstep.fed id hid
        rw [hout, List.length_append]
        exact Nat.le_add_right _ _
      · rw [hstep.others id hid]
    rw [CudaSequence.left, CudaSequence.left, if_neg hunfinished, hstep.request]
    split
    · exact Nat.zero_le _
    · exact Nat.sub_le_sub_left hle _
  · rw [hstep.finished id hline]

theorem left_lt {id : Nat} (hid : id ∈ E.batch s) : (s'.sequences id).left < (s.sequences id).left := by
  have hline : id ∈ s.line := List.mem_of_mem_take hid
  have hunfinished := ((mem_line hs).mp hline).2
  have hlt := length_lt_of_line hs hline
  obtain ⟨token, -, hout⟩ := hstep.fed id hid
  rw [CudaSequence.left, CudaSequence.left, if_neg hunfinished, hstep.request, hout, List.length_append,
    List.length_singleton]
  split <;> omega

end Stepped

/-- The tokens that a request and those that came before it may still get. -/
def ahead (s : CudaEngineState K G) (id : Nat) : Nat := ∑ i ∈ Finset.range (id + 1), (s.sequences i).left

theorem Stepped.ahead_lt (hstep : Stepped E s s') (h : Ordered E s) (hmax : 1 ≤ E.maxBatch) {id : Nat}
    (hid : id ∈ s.line) : ahead s' id < ahead s id := by
  obtain ⟨first, rest, hline⟩ := List.exists_cons_of_ne_nil (List.ne_nil_of_mem hid)
  have hfirst : first ∈ E.batch s := by
    obtain ⟨n, hn⟩ : ∃ n, E.maxBatch.toNat = n + 1 := ⟨E.maxBatch.toNat - 1, by omega⟩
    rw [batch, hline, hn, List.take_succ_cons]
    exact List.mem_cons_self
  have hle : first ≤ id := by
    have hsorted := h.sorted
    rw [hline] at hid hsorted
    obtain rfl | hrest := List.mem_cons.mp hid
    · exact Nat.le_refl _
    · exact (List.rel_of_pairwise_cons hsorted hrest).le
  exact Finset.sum_lt_sum (fun i _ => hstep.left_le h.inv i)
    ⟨first, Finset.mem_range.mpr (Nat.lt_succ_of_le hle), hstep.left_lt h.inv hfirst⟩

theorem ahead_pos (h : Inv E s) {id : Nat} (hid : id ∈ s.line) : 0 < ahead s id := by
  have hlt := length_lt_of_line h hid
  refine Finset.sum_pos' (fun _ _ => Nat.zero_le _) ⟨id, Finset.self_mem_range_succ id, ?_⟩
  rw [CudaSequence.left, if_neg ((mem_line h).mp hid).2]
  omega

/-- A request that has got all its tokens before it is out of the line. -/
theorem finished_of_not_mem (h : Inv E s) {id : Nat} (hid : id < s.nextId) (hline : id ∉ s.line) :
    (s.sequences id).status = .finished := by
  by_contra hunfinished
  exact hline ((mem_line h).mpr ⟨hid, hunfinished⟩)

def isStep : Engine.Action K → Bool
  | .step => true
  | .addRequest _ => false

section Runs

variable (hlayers : 0 < E.model.config.numHiddenLayers) (hdim : 0 < E.model.kvDim)
include hlayers hdim

theorem Ordered.step (h : Ordered E s) : Ordered E (finalState E.step s) ∧ Stepped E s (finalState E.step s) :=
  wp_finalState (P := fun s' => Ordered E s' ∧ Stepped E s s')
    (wp_mono (h.wp_step hlayers hdim) (fun _ _ h' => h') fun _ _ hf => hf.elim)

theorem Ordered.next {rng : G} (h : Ordered E s) {a : Engine.Action K} (ha : E.Allowed s a) :
    Ordered E ((E.machine rng).next s a) := by
  cases a with
  | step => exact (h.step hlayers hdim).1
  | addRequest request =>
    change Ordered E (finalState (addRequest request) s)
    rw [finalState, addRequest_eq ha.nonempty]
    exact h.arrive ha

theorem ordered_reachable {rng : G} (hs : (E.machine rng).Reachable E.Allowed s) : Ordered E s :=
  hs.invariant (.create rng) fun _ _ _ h ha => h.next hlayers hdim ha

/-- **Nobody starves.** A request is finished after as many steps as it and those before it may take, whatever
arrives meanwhile. -/
theorem finished_of_steps {rng : G} (hmax : 1 ≤ E.maxBatch) (h : Ordered E s) {actions : List (Engine.Action K)}
    (hallowed : ∀ a ∈ actions, E.Allowed s a) {id : Nat} (hid : id < s.nextId)
    (hsteps : id ∉ s.line ∨ ahead s id ≤ actions.countP isStep) :
    ((actions.foldl (E.machine rng).next s).sequences id).status = .finished := by
  induction actions generalizing s with
  | nil =>
    apply finished_of_not_mem h.inv hid
    intro hline
    have hpos := ahead_pos h.inv hline
    have hle : ahead s id ≤ 0 := hsteps.resolve_left (not_not.mpr hline)
    omega
  | cons a actions ih =>
    have hnext : Ordered E ((E.machine rng).next s a) := h.next hlayers hdim (hallowed a List.mem_cons_self)
    have hrest : ∀ b ∈ actions, E.Allowed ((E.machine rng).next s a) b := by
      intro b hb
      exact hallowed b (List.mem_cons_of_mem a hb)
    rw [List.foldl_cons]
    cases a with
    | step =>
      have hstep := (h.step hlayers hdim).2
      apply ih hnext hrest (by rw [hstep.nextId.symm] at hid; exact hid)
      by_cases hline : id ∈ s.line
      · right
        have hlt := hstep.ahead_lt h hmax hline
        have hle := hsteps.resolve_left (not_not.mpr hline)
        rw [List.countP_cons_of_pos (by rfl)] at hle
        exact Nat.le_of_lt_succ (Nat.lt_of_lt_of_le hlt hle)
      · left
        change id ∉ (finalState E.step s).line
        rw [hstep.line]
        exact fun hmem => hline (List.mem_of_mem_filter hmem)
    | addRequest request =>
      have hserved : E.Served request := hallowed (.addRequest request) List.mem_cons_self
      have heq : (E.machine rng).next s (.addRequest request) = { s.setSequence s.nextId { request } with
          waiting := s.waiting ++ [s.nextId], nextId := s.nextId + 1 } := by
        change finalState (addRequest request) s = _
        rw [finalState, addRequest_eq hserved.nonempty]
      have hold : ∀ i < s.nextId, Function.update s.sequences s.nextId { request } i = s.sequences i :=
        fun i hi => Function.update_of_ne (Nat.ne_of_lt hi) _ _
      rw [heq] at hnext hrest ⊢
      apply ih hnext hrest (Nat.lt_succ_of_lt hid)
      obtain hline | hle := hsteps
      · left
        intro hmem
        have hunfinished := ((mem_line hnext.inv).mp hmem).2
        simp only [setSequence, hold id hid] at hunfinished
        exact hline ((mem_line h.inv).mpr ⟨hid, hunfinished⟩)
      · right
        rw [List.countP_cons_of_neg Bool.false_ne_true] at hle
        refine (Finset.sum_congr rfl fun i hi => ?_).trans_le hle
        have hi := Finset.mem_range.mp hi
        exact congrArg CudaSequence.left (hold i (by omega))

theorem requests_steps {rng : G} (hs : (E.machine rng).Reachable E.Allowed s) (k : Nat) :
    (E.machine rng).Reachable E.Allowed ((finalState E.step)^[k] s) ∧
      ((finalState E.step)^[k] s).nextId = s.nextId ∧
      ∀ id, (((finalState E.step)^[k] s).sequences id).request = (s.sequences id).request := by
  induction k with
  | zero => exact ⟨hs, rfl, fun _ => rfl⟩
  | succ k ih =>
    obtain ⟨hreach, hnextId, hrequest⟩ := ih
    rw [Function.iterate_succ_apply']
    have hallowed : E.Allowed ((finalState E.step)^[k] s) .step := trivial
    have hstep := ((ordered_reachable hlayers hdim hreach).step hlayers hdim).2
    exact ⟨.next hreach hallowed, hstep.nextId.trans hnextId, fun id => (hstep.request id).trans (hrequest id)⟩

end Runs

/-- `generate`: a fresh request, and steps until it is finished, for so many turns at most. -/
def generate (E : CudaEngine K G) (request : Request K) (turns : Nat) :
    EStateM Error (CudaEngineState K G) (Option (List Int)) := do
  let id ← addRequest request
  if ← untilDone (fun s => (s.sequences id).status = .finished) E.step turns then
    return some ((← get).sequences id).output
  else
    return none

/-- What holds of a request that a caller waits for. -/
structure Awaited (E : CudaEngine K G) (rng : G) (id : Nat) (request : Request K) (s : CudaEngineState K G) :
    Prop where
  reachable : (E.machine rng).Reachable E.Allowed s
  lt : id < s.nextId
  request_eq : (s.sequences id).request = request
  length : (s.sequences id).output.length ≤ request.maxTokens.toNat

theorem Awaited.step (hlayers : 0 < E.model.config.numHiddenLayers) (hdim : 0 < E.model.kvDim)
    (hmax : 1 ≤ E.maxBatch) {rng : G} {id : Nat} {request : Request K} (h : Awaited E rng id request s)
    (hunfinished : (s.sequences id).status ≠ .finished) :
    wp E.step (fun _ s' => Awaited E rng id request s' ∧ ahead s' id < ahead s id) (fun _ _ => False) s := by
  have hordered := ordered_reachable hlayers hdim h.reachable
  have hline := (mem_line hordered.inv).mpr ⟨h.lt, hunfinished⟩
  obtain ⟨_, s', hrun, -, hstep⟩ := wp_returns (hordered.wp_step hlayers hdim)
  have hnext : (E.machine rng).next s .step = s' := by
    change finalState E.step s = s'
    rw [finalState, hrun]
  have hallowed : E.Allowed s .step := trivial
  have hreach := Machine.Reachable.next h.reachable hallowed
  rw [hnext] at hreach
  rw [wp, hrun]
  refine ⟨⟨hreach, hstep.nextId.symm ▸ h.lt, (hstep.request id).trans h.request_eq, ?_⟩,
    hstep.ahead_lt hordered hmax hline⟩
  have hlt := length_lt_of_line hordered.inv hline
  rw [h.request_eq] at hlt
  by_cases hfed : id ∈ E.batch s
  · obtain ⟨token, -, hout⟩ := hstep.fed id hfed
    rw [hout, List.length_append, List.length_singleton]
    exact hlt
  · rw [hstep.others id hfed]
    exact h.length

end CudaEngine

end InferenceEngine
