import InferenceEngine.Model.Atomicity

/-!
# Failures of a batch, in any run

A block manager is used through its own methods and through `forward_batch`, which may throw at any item or
layer. What a throw leaves behind are blocks at the ends of tables, there until the sequence is freed, and a cache
without the entries it evicted. Later batches cannot tell, unless a call in between reads one or the other.
-/

namespace InferenceEngine

open Exec

namespace Pool

variable {K : Type} {c : PoolSizes} {n : Nat} {p p' : Pool K}

/-- The blocks `taken` went to tables of the sequences `ids`: each to one table, and back when that sequence
is freed. -/
structure Took (ids : List Nat) (taken : Nat → List Nat) (p p' : Pool K) : Prop where
  table : ∀ i, (p'.seqs i).blockTable = (p.seqs i).blockTable ++ taken i
  others : ∀ i, i ∉ ids → taken i = []
  complete : ∀ b ∈ p.alloc.freeList, b ∉ p'.alloc.freeList → ∃ i, b ∈ taken i
  once : ∀ i, ∀ b ∈ taken i, (p'.seqs i).blockTable.count b = 1 ∧ ∀ j, j ≠ i → b ∉ (p'.seqs j).blockTable
  uncached : ∀ i, ∀ b ∈ taken i, ∀ e ∈ p'.prefixes, e.2.block ≠ b
  returned : ∀ i, ∀ b ∈ taken i,
    wp (Pool.free i) (fun _ p'' => b ∈ p''.alloc.freeList) (fun _ _ => False) p'

/-- A block of a table with one reference is there once, and nowhere else. -/
theorem count_parts {i b : Nat} (hi : i < n) (hb : b ∈ (p.seqs i).blockTable) (hone : (p.refs n).count b = 1) :
    (p.seqs i).blockTable.count b = 1 ∧ b ∉ p.otherRefs n i ∧ b ∉ p.cacheRefs := by
  have hpos := List.count_pos_iff.mpr hb
  rw [refs, tableRefs_eq hi, Multiset.count_add, Multiset.count_add, Multiset.coe_count] at hone
  exact ⟨by omega, Multiset.count_eq_zero.mp (by omega), Multiset.count_eq_zero.mp (by omega)⟩

theorem wp_free_of_count_eq_one (h : p.Wf c n) {i b : Nat} (hi : i < n) (hb : b ∈ (p.seqs i).blockTable)
    (hone : (p.refs n).count b = 1) :
    wp (Pool.free i) (fun _ p' => b ∈ p'.alloc.freeList) (fun _ _ => False) p := by
  obtain ⟨_, hother, hcache⟩ := count_parts hi hb hone
  apply wp_mono (wp_free hi h) _ fun _ _ hf => hf
  intro _ p' ⟨hw, hf⟩
  rw [hw.tracked.mem_freeList, hf.refs n hi, Multiset.mem_add, not_or]
  exact ⟨h.table_lt hi hb, hother, hcache⟩

theorem Dropped.took {ids : List Nat} (hp : p.Wf c n) (h : Dropped c n ids p p') :
    ∃ taken, Took ids taken p p' := by
  choose taken htaken using h.table
  have hlt : ∀ i, ∀ b ∈ taken i, i < n := by
    intro i b hb
    by_contra hi
    have hfresh := htaken i
    rw [h.wf.fresh i (not_lt.mp hi)] at hfresh
    rw [(List.append_eq_nil_iff.mp hfresh.symm).2] at hb
    simp at hb
  -- a new entry of a table lies behind the committed rows
  have hone : ∀ i, ∀ b ∈ taken i, (p'.refs n).count b = 1 := by
    intro i b hb
    obtain ⟨k, hk⟩ := List.getElem?_of_mem hb
    apply h.wf.unshared i (hlt i b hb) ((p.seqs i).blockTable.length + k) b
    · rw [htaken, List.getElem?_append_right (Nat.le_add_right _ _), Nat.add_sub_cancel_left, hk]
    · rw [h.length]
      apply (hp.length_le i).trans_lt
      exact Nat.mul_lt_mul_of_pos_right (by omega) c.blockSize_pos
  have hmem : ∀ i, ∀ b ∈ taken i, b ∈ (p'.seqs i).blockTable := by
    intro i b hb
    rw [htaken]
    exact List.mem_append_right _ hb
  refine ⟨taken, htaken, fun i hi => ?_, fun b hb hb' => ?_, fun i b hb => ⟨?_, fun j hj hbj => ?_⟩,
    fun i b hb e he heq => ?_, fun i b hb => ?_⟩
  · have hsame := htaken i
    rw [h.others i hi] at hsame
    simpa using hsame.symm
  · obtain ⟨hb, hnot⟩ := (hp.tracked.mem_freeList b).mp hb
    rw [h.wf.tracked.mem_freeList, not_and, not_not] at hb'
    obtain ⟨i, hi, hbi⟩ | ⟨e, he, rfl⟩ := mem_refs (hb' hb)
    · rw [htaken] at hbi
      obtain hold | hnew := List.mem_append.mp hbi
      · exact absurd (mem_refs_of_mem_table hi hold) hnot
      · exact ⟨i, hnew⟩
    · exact absurd (mem_refs_of_mem_prefixes (h.prefixes.subset he)) hnot
  · exact (count_parts (hlt i b hb) (hmem i b hb) (hone i b hb)).1
  · have hjn : j < n := by
      by_contra hge
      rw [h.wf.fresh j (not_lt.mp hge)] at hbj
      simp at hbj
    apply (count_parts (hlt i b hb) (hmem i b hb) (hone i b hb)).2.1
    exact Multiset.mem_sum.mpr ⟨j, Finset.mem_erase.mpr ⟨hj, Finset.mem_range.mpr hjn⟩, Multiset.mem_coe.mpr hbj⟩
  · apply (count_parts (hlt i b hb) (hmem i b hb) (hone i b hb)).2.2
    rw [← heq]
    exact mem_cacheRefs he
  · exact wp_free_of_count_eq_one h.wf (hlt i b hb) (hmem i b hb) (hone i b hb)

end Pool

/-! ### Runs -/

/-- What the caller of a method of the block manager keeps to, with `n` sequences: it stays within the tables,
and registers committed rows only. -/
def PoolOp.Within {K : Type} (c : PoolSizes) (n : Nat) (p : Pool K) : PoolOp K → Prop
  | .reserve id _ | .free id | .acquire id _ => id < n
  | .write id _ start _ _ len => id < n ∧ start + len ≤ (p.seqs id).blockTable.length * c.blockSize
  | .commit id len => id < n ∧ (p.seqs id).length + len ≤ (p.seqs id).blockTable.length * c.blockSize
  | .register id tokens => id < n ∧ tokens.length ≤ (p.seqs id).length
  | .clear => True

theorem PoolOp.Within.on {K : Type} {c : PoolSizes} {n : Nat} {p : Pool K} {op : PoolOp K}
    (h : op.Within c n p) : op.On n := by
  intro id hid
  cases op <;> simp_all [PoolOp.Within, PoolOp.target]

/-- A call of a method of the block manager, or a batch on it. -/
inductive BatchOp (K : Type) where
  | pool (op : PoolOp K)
  | forward (items : List BatchItem)

def BatchOp.Within {K : Type} (c : PoolSizes) (n : Nat) (p : Pool K) : BatchOp K → Prop
  | .pool op => op.Within c n p
  | .forward items => Model.ValidItems n items

namespace Pool

variable {K : Type} {c : PoolSizes} {n : Nat} {p p' : Pool K}

theorem Wf.next (h : p.Wf c n) {op : PoolOp K} (hop : op.Within c n p) : (finalState (op.run c) p).Wf c n := by
  cases op with
  | reserve id nNew => exact wp_finalState (wp_mono (wp_reserve nNew hop h) (fun _ _ hq => hq.1) fun _ _ hq => hq.1)
  | write id layer start k v len => exact h.write id layer start k v len
  | commit id len => exact h.commit len hop.1 hop.2
  | free id => exact wp_finalState (wp_mono (wp_free hop h) (fun _ _ hq => hq.1) fun _ _ hf => hf.elim)
  | acquire id tokens =>
    apply wp_finalState
    simp only [PoolOp.run, wp_bind, wp_pure]
    by_cases hfresh : p.seqs id = {}
    · exact wp_mono (wp_acquireSharedPrefix hop tokens h hfresh) (fun _ _ hq => hq.2.1) fun _ _ hf => hf.elim
    · exact wp_of_ok (acquireSharedPrefix_of_not_fresh tokens (not_fresh hfresh)) h
  | register id tokens =>
    exact wp_finalState (wp_mono (wp_registerPrefix hop.1 h hop.2) (fun _ _ hq => hq.1) fun _ _ hf => hf.elim)
  | clear => exact wp_finalState (wp_mono (wp_clearPrefixCache h) (fun _ _ hq => hq.1) fun _ _ hf => hf.elim)

/-- The blocks `acquire_shared_prefix` hands out. -/
def shared (c : PoolSizes) (id : Nat) (tokens : List Int) (p : Pool K) : List Nat :=
  if p.seqs id = {} then matchChain c p.prefixes (c.spans tokens) 0 else []

end Pool

/-- What a call has to meet to do the same in two pools with `layers` layers, the second with the blocks of failed
batches: it stays within the tables of the first, `commit` commits the same rows, `register_prefix` puts no block
under a second link, and `acquire_shared_prefix` hands out entries in `kept`. -/
def PoolOp.Alongside {K : Type} (c : PoolSizes) (n layers : Nat) (kept : List Link) (p p' : Pool K) : PoolOp K → Prop
  | .reserve id _ | .free id => id < n
  | .write id _ start _ _ len => id < n ∧ start + len ≤ (p.seqs id).blockTable.length * c.blockSize
  | .commit id len => id < n ∧ (p.seqs id).length + len ≤ (p.seqs id).blockTable.length * c.blockSize ∧
    ∀ l < layers, ∀ j < len,
      p'.rowAt c l id ((p.seqs id).length + j) = p.rowAt c l id ((p.seqs id).length + j)
  | .acquire id tokens => id < n ∧ (p.shared c id tokens).length = (p'.shared c id tokens).length ∧
    ∀ k < (p.shared c id tokens).length, (chainHash ((c.spans tokens).take k), (c.spans tokens).getD k []) ∈ kept
  | .register id tokens => id < n ∧ tokens.length ≤ (p.seqs id).length ∧ ∀ b < c.numBlocks,
    ((finalState (Pool.registerPrefix c id tokens) p).Doubled b → p.Doubled b) ∧
      ((finalState (Pool.registerPrefix c id tokens) p').Doubled b → p'.Doubled b)
  | .clear => True

instance {K : Type} [DecidableEq K] (c : PoolSizes) (n layers : Nat) (kept : List Link) (p p' : Pool K) :
    ∀ op : PoolOp K, Decidable (op.Alongside c n layers kept p p')
  | .reserve _ _ | .free _ => inferInstanceAs (Decidable (_ < _))
  | .write _ _ _ _ _ _ | .commit _ _ | .acquire _ _ | .register _ _ => inferInstanceAs (Decidable (_ ∧ _))
  | .clear => inferInstanceAs (Decidable True)

/-- Of a batch nothing is asked beyond what its caller keeps to. -/
def BatchOp.Alongside {K : Type} (c : PoolSizes) (n layers : Nat) (kept : List Link) (p p' : Pool K) :
    BatchOp K → Prop
  | .pool op => op.Alongside c n layers kept p p'
  | .forward items => Model.ValidItems n items

namespace Model

open Pool

variable {W Q K : Type} (M : Model W Q K) (c : PoolSizes) {n : Nat} {p p' : Pool K}

def run : BatchOp K → EStateM Error (Pool K) Unit
  | .pool op => op.run c
  | .forward items => do
    let _ ← M.forwardBatch c items

def serving [Zero K] : Machine (Pool K) (BatchOp K) where
  start := .create c
  next p call := finalState (M.run c call) p

/-- Calls one after another, whether they return or throw. -/
def after (calls : List (BatchOp K)) (p : Pool K) : Pool K := calls.foldl (fun p call => finalState (M.run c call) p) p

/-- Of these calls the ones that return. -/
def answered : List (BatchOp K) → Pool K → List (BatchOp K)
  | [], _ => []
  | call :: rest, p =>
    match M.run c call p with
    | .ok _ p' => call :: answered rest p'
    | .error _ p' => answered rest p'

/-- The calls do the same from `p'` as the ones of them that return do from `p`. -/
def Along (n : Nat) : List Link → List (BatchOp K) → Pool K → Pool K → Prop
  | _, [], _, _ => True
  | kept, call :: rest, p, p' =>
    call.Alongside c n M.config.numHiddenLayers kept p p' ∧
    match M.run c call p' with
    | .ok _ q' =>
      Along n (keptAfter kept p p' (finalState (M.run c call) p) q') rest (finalState (M.run c call) p) q'
    | .error _ q' => Along n (keptAfter kept p p' p q') rest p q'

instance decidableAlong [DecidableEq K] : ∀ (kept : List Link) (calls : List (BatchOp K)) (p p' : Pool K),
    Decidable (M.Along c n kept calls p p')
  | _, [], _, _ => isTrue trivial
  | kept, call :: rest, p, p' => by
    have hcall : Decidable (call.Alongside c n M.config.numHiddenLayers kept p p') := by
      cases call with
      | pool op => exact inferInstanceAs (Decidable (op.Alongside c n M.config.numHiddenLayers kept p p'))
      | forward items =>
        exact decidable_of_iff ((∀ f ∈ itemFeeds items, f.1 < n) ∧ ((itemFeeds items).map Prod.fst).Nodup)
          ⟨fun h => ⟨h.1, h.2⟩, fun h => ⟨h.1, h.2⟩⟩
    unfold Along
    cases M.run c call p' with
    | ok _ q' =>
      have hrest := decidableAlong (keptAfter kept p p' (finalState (M.run c call) p) q') rest
        (finalState (M.run c call) p) q'
      exact instDecidableAnd
    | error _ q' =>
      have hrest := decidableAlong (keptAfter kept p p' p q') rest p q'
      exact instDecidableAnd

variable {M c}

/-- A batch keeps both invariants of the pool, also when it throws. -/
theorem wp_forwardBatch_sound (hw : p.Wf c n) (hc : p.Counted c n) {items : List BatchItem}
    (hvalid : ValidItems n items) :
    wp (M.forwardBatch c items) (fun _ p' => p'.Wf c n ∧ p'.Counted c n)
      (fun _ p' => p'.Wf c n ∧ p'.Counted c n) p := by
  by_cases hitems : items = feedItems (itemFeeds items)
  · rw [hitems]
    apply wp_mono (wp_and (wp_forwardBatch (M := M) hw hvalid.lt hvalid.nodup)
      (wp_forwardBatch_on hw hc hvalid.lt hvalid.nodup))
    · exact fun _ _ h => ⟨h.1.1, h.2.counted⟩
    · intro e p' ⟨⟨hw', _⟩, hd, _⟩
      obtain hd | ⟨_, _, hc'⟩ := hd
      · exact ⟨hw', hd.counted⟩
      · exact ⟨hw', hc'⟩
  · apply wp_mono (wp_forwardBatch_null (M := M) hw hc hvalid.lt hvalid.nodup hitems)
    · exact fun _ _ hf => hf.elim
    · exact fun _ _ hd => ⟨hd.wf, hd.counted⟩

theorem sound_reachable [Zero K] (hp : (M.serving c).Reachable (fun p op => op.Within c n p) p) :
    p.Wf c n ∧ p.Counted c n := by
  apply hp.invariant (I := fun p => p.Wf c n ∧ p.Counted c n) ⟨wf_create n, counted_create n⟩
  intro q op _ ⟨hw, hc⟩ hop
  cases op with
  | pool op => exact ⟨hw.next hop, hc.next (PoolOp.Within.on hop)⟩
  | forward items =>
    apply wp_finalState (P := fun p : Pool K => p.Wf c n ∧ p.Counted c n)
    simp only [run, wp_bind, wp_pure]
    exact wp_forwardBatch_sound hw hc hop

/-! ### The same calls on both pools -/

theorem rowAt_of_contents {l i r : Nat} (h : p'.contents c l i = p.contents c l i) (hr : r < (p.seqs i).length) :
    p'.rowAt c l i r = p.rowAt c l i r := by
  have hr' : r < (p'.seqs i).length := by
    have hlen := congrArg List.length h
    rw [length_contents, length_contents] at hlen
    rwa [hlen]
  have hnew := holds_contents (c := c) (p := p') l i r (by rwa [length_contents])
  rw [h, holds_contents l i r (by rwa [length_contents]), Option.some.injEq] at hnew
  exact hnew.symm

/-- The blocks at one place behind committed rows have the same cells. -/
theorem Burdened.blockCell_eq {kept : List Link} (h : Burdened M c n kept p p') {i k b b' : Nat}
    (hb : (p.seqs i).blockTable[k]? = some b) (hb' : (p'.seqs i).blockTable[k]? = some b') {l slot : Nat}
    (hl : l < M.config.numHiddenLayers) (hslot : slot < c.blockSize)
    (hlen : k * c.blockSize + slot < (p.seqs i).length) : p'.blockCell c l b' slot = p.blockCell c l b slot := by
  have hdiv : (k * c.blockSize + slot) / c.blockSize = k := by
    rw [Nat.mul_comm, Nat.mul_add_div c.blockSize_pos, Nat.div_eq_of_lt hslot, Nat.add_zero]
  have hmod : (k * c.blockSize + slot) % c.blockSize = slot := by
    rw [Nat.mul_comm, Nat.mul_add_mod, Nat.mod_eq_of_lt hslot]
  have hrow := rowAt_of_contents (congrFun (h.contents l hl) i) hlen
  rw [rowAt_eq_blockCell, rowAt_eq_blockCell, hdiv, hmod, List.getD_eq_getElem?_getD, List.getD_eq_getElem?_getD, hb,
    hb'] at hrow
  exact hrow

theorem Burdened.reserve {kept : List Link} (h : Burdened M c n kept p p') {id nNew : Nat} (hid : id < n) :
    wp (Pool.reserve c id nNew)
      (fun _ q' => ∃ q, Pool.reserve c id nNew p = .ok () q ∧ Burdened M c n (keptAfter kept p p' q q') q q')
      (fun _ q' => Burdened M c n (keptAfter kept p p' p q') p q') p' := by
  have hpost := wp_reserve_grew h.wf' h.counted' hid (List.replicate nNew 0)
  have hrun := wp_reserve_grew h.wf h.counted hid (List.replicate nNew 0)
  rw [List.length_replicate] at hpost hrun
  apply wp_mono hpost
  · intro _ q' hpost
    obtain ⟨hg', htable'⟩ := hpost
    -- what is missing in `p'` was there, so what is missing in `p` is there
    have hroom : p.missing c (id, List.replicate nNew 0) ≤ p.supply.length := by
      have hle : p.needed c [(id, List.replicate nNew 0)] + p.tableBlocks n ≤
          p'.needed c [(id, List.replicate nNew 0)] + p'.tableBlocks n :=
        h.needed_le (by simpa using hid) (List.nodup_singleton _)
      have hblocks := tableBlocks_eq_add hid htable' fun i hi => hg'.extended.others i (by simpa using hi)
      have hsupply := h.supply
      have hsupply' := hg'.supply
      rw [needed, needed, List.map_singleton, List.map_singleton, List.sum_singleton, List.sum_singleton] at hle
      omega
    cases hreserve : Pool.reserve c id nNew p with
    | error e q => exact absurd hroom (Nat.not_le.mpr (wp_error hrun hreserve).2)
    | ok _ q =>
      obtain ⟨hg, htable⟩ := wp_ok hrun hreserve
      refine ⟨q, rfl, h.grow hg.wf hg.counted hg'.wf hg'.counted (hg.extended.kept h.wf) (hg'.extended.kept h.wf')
        hg.ahead hg'.ahead (fun i => ?_) (fun l hl => ?_) fun i => ?_⟩
      · rw [hg.extended.length, hg'.extended.length, h.length]
      · rw [hg.extended.contents h.wf, hg'.extended.contents h.wf', h.contents l hl]
      · have hle := h.table_le i
        by_cases hi : i = id
        · rw [hi, htable, htable', missing, missing, h.length]
          rw [hi] at hle
          simp only
          omega
        · rw [hg.extended.others i (by simpa using hi), hg'.extended.others i (by simpa using hi)]
          exact hle
  · intro e q' hpost
    obtain ⟨hg', -⟩ := hpost
    exact h.drop (hg'.dropped h.wf' (Stored.refl c q') hg'.counted)

/-- A write reaches a slot of both blocks of a pair, or of none. -/
theorem Burdened.write_blockCell {kept : List Link} (h : Burdened M c n kept p p') {id layer start len : Nat}
    {k v : Rows K} (hid : id < n) (hend : start + len ≤ (p.seqs id).blockTable.length * c.blockSize) {b b' : Nat}
    (hpair : Paired n kept p p' b b') {l slot : Nat} (hslot : slot < c.blockSize)
    (hcell : p'.blockCell c l b' slot = p.blockCell c l b slot) :
    (p'.write c id layer start k v len).blockCell c l b' slot =
      (p.write c id layer start k v len).blockCell c l b slot := by
  by_cases hl : l = layer
  swap
  · rw [blockCell, blockCell, write_cell_of_layer_ne hl, write_cell_of_layer_ne hl]
    exact hcell
  subst hl
  have hreach : ∀ j < len, c.rowAddr (p.seqs id).blockTable (start + j) = b * c.blockSize + slot ↔
      c.rowAddr (p'.seqs id).blockTable (start + j) = b' * c.blockSize + slot := by
    intro j hj
    have hlt : start + j < (p.seqs id).blockTable.length * c.blockSize := by omega
    have hget := c.getElem?_of_lt hlt
    have hget' := c.getElem?_of_lt (hlt.trans_le (Nat.mul_le_mul_right _ (h.table_le id)))
    rw [c.rowAddr_eq_iff hslot, c.rowAddr_eq_iff hslot, h.alike.paired (.row hid hget hget') hpair]
  have hstore : ∀ {store store' : Nat → Row K} {src : Rows K},
      store' (b' * c.blockSize + slot) = store (b * c.blockSize + slot) →
      c.writeOne store' (p'.seqs id).blockTable start src len (b' * c.blockSize + slot) =
        c.writeOne store (p.seqs id).blockTable start src len (b * c.blockSize + slot) := by
    intro store store' src hsame
    clear hend
    induction len with
    | zero => exact hsame
    | succ m ih =>
      have hlast := hreach m (Nat.lt_succ_self m)
      have hrest := ih fun j hj => hreach j (Nat.lt_succ_of_lt hj)
      rw [PoolSizes.writeOne, PoolSizes.writeOne, List.range_succ, List.foldl_append, List.foldl_append,
        List.foldl_cons, List.foldl_cons, List.foldl_nil, List.foldl_nil]
      by_cases hx : c.rowAddr (p.seqs id).blockTable (start + m) = b * c.blockSize + slot
      · rw [hlast.mp hx, hx, Function.update_self, Function.update_self]
      · rw [Function.update_of_ne (Ne.symm hx), Function.update_of_ne fun heq => hx (hlast.mpr heq.symm)]
        exact hrest
  rw [blockCell, blockCell, cell, cell, Prod.mk.injEq] at hcell
  rw [blockCell, blockCell, cell, cell, Pool.write, Pool.write]
  simp only [Function.update_self]
  rw [hstore hcell.1, hstore hcell.2]

theorem Burdened.write {kept : List Link} (h : Burdened M c n kept p p') {id layer start len : Nat} {k v : Rows K}
    (hid : id < n) (hend : start + len ≤ (p.seqs id).blockTable.length * c.blockSize) :
    Burdened M c n
      (keptAfter kept p p' (p.write c id layer start k v len) (p'.write c id layer start k v len))
      (p.write c id layer start k v len) (p'.write c id layer start k v len) := by
  have hahead : ∀ {r : Pool K}, r.Wf c n → Ahead c n r (r.write c id layer start k v len) := fun hr =>
    hr.ahead.congr (fun _ => rfl) rfl
  refine ⟨h.wf.write id layer start k v len, h.counted.write id layer start k v len,
    h.wf'.write id layer start k v len, h.counted'.write id layer start k v len, h.length, fun l hl => ?_, h.table_le,
    fun {x b b'} hx hb hb' l hl slot hslot => ?_,
    h.alike.ahead h.wf h.length h.table_le (hahead h.wf) (hahead h.wf')⟩
  · funext i
    have hlen : ((p'.write c id layer start k v len).seqs i).length =
        ((p.write c id layer start k v len).seqs i).length := h.length i
    apply contents_congr hlen
    intro r hr
    have hr : r < (p.seqs i).length := hr
    have hi : i < n := by
      by_contra hi
      rw [h.wf.fresh i (not_lt.mp hi)] at hr
      exact Nat.not_lt_zero r hr
    have hlt := h.wf.lt_of_lt_length hr
    have hrow := rowAt_of_contents (congrFun (h.contents l hl) i) hr
    rw [rowAt_eq_blockCell, rowAt_eq_blockCell] at hrow ⊢
    exact h.write_blockCell hid hend (.row hi (c.getElem?_of_lt hlt)
      (c.getElem?_of_lt (hlt.trans_le (Nat.mul_le_mul_right _ (h.table_le i))))) (Nat.mod_lt _ c.blockSize_pos) hrow
  · obtain ⟨-, hkept, -⟩ := mem_keptAfter.mp hx
    have hx := hkept.resolve_right fun hnew => hnew.1 (mem_links.mpr ⟨b, hb⟩)
    exact h.write_blockCell hid hend (.entry hx hb hb') hslot (h.cells hx hb hb' l hl slot hslot)

theorem kept_commit (id len : Nat) (p : Pool K) : Kept c p (p.commit id len) where
  length_le i := by
    rw [commit_length]
    exact Nat.le_add_right _ _
  committed i layer r _ := commit_rowAt id len i layer r
  cached e he := ⟨he, fun _ _ _ => rfl⟩

theorem Burdened.commit {kept : List Link} (h : Burdened M c n kept p p') {id len : Nat} (hid : id < n)
    (hle : (p.seqs id).length + len ≤ (p.seqs id).blockTable.length * c.blockSize)
    (hrows : ∀ l < M.config.numHiddenLayers, ∀ j < len,
      p'.rowAt c l id ((p.seqs id).length + j) = p.rowAt c l id ((p.seqs id).length + j)) :
    Burdened M c n (keptAfter kept p p' (p.commit id len) (p'.commit id len)) (p.commit id len) (p'.commit id len) := by
  have hle' : (p'.seqs id).length + len ≤ (p'.seqs id).blockTable.length * c.blockSize := by
    rw [h.length]
    exact hle.trans (Nat.mul_le_mul_right _ (h.table_le id))
  apply h.grow (h.wf.commit len hid hle) (h.counted.commit hid len) (h.wf'.commit len hid hle')
    (h.counted'.commit hid len) (kept_commit id len p) (kept_commit id len p')
    (h.wf.ahead.congr (commit_table id len) rfl) (h.wf'.ahead.congr (commit_table id len) rfl)
  · intro i
    rw [commit_length, commit_length, h.length]
  · intro l hl
    funext i
    apply contents_congr
    · rw [commit_length, commit_length, h.length]
    · intro r hr
      rw [commit_rowAt, commit_rowAt]
      by_cases hold : r < (p.seqs i).length
      · exact rowAt_of_contents (congrFun (h.contents l hl) i) hold
      · rw [commit_length] at hr
        have hi : i = id := by
          by_contra hi
          rw [if_neg hi] at hr
          omega
        subst hi
        rw [if_pos rfl] at hr
        have hrow := hrows l hl (r - (p.seqs i).length) (by omega)
        rwa [Nat.add_sub_cancel' (not_lt.mp hold)] at hrow
  · intro i
    rw [commit_table, commit_table]
    exact h.table_le i

theorem Burdened.free {kept : List Link} (h : Burdened M c n kept p p') {id : Nat} (hid : id < n) :
    ∃ q q', Pool.free id p = .ok () q ∧ Pool.free id p' = .ok () q' ∧
      Burdened M c n (keptAfter kept p p' q q') q q' := by
  obtain ⟨_, q, hrun, hw, hf⟩ := wp_returns (wp_free hid h.wf)
  obtain ⟨_, q', hrun', hw', hf'⟩ := wp_returns (wp_free hid h.wf')
  have hc := (wp_ok (h.counted.wp_free hid) hrun).1
  have hc' := (wp_ok (h.counted'.wp_free hid) hrun').1
  refine ⟨q, q', hrun, hrun', hw, hc, hw', hc', fun i => ?_, fun l hl => ?_, fun i => ?_, ?_, h.alike.freed hf hf'⟩
  · by_cases hi : i = id
    · rw [hi, hf.self, hf'.self]
    · rw [hf.others i hi, hf'.others i hi, h.length]
  · funext i
    by_cases hi : i = id
    · rw [hi, Pool.contents, Pool.contents, hf.self, hf'.self]
      rfl
    · apply contents_congr (by rw [hf.others i hi, hf'.others i hi, h.length])
      intro r hr
      rw [hf.rowAt hi, hf'.rowAt hi]
      rw [hf.others i hi] at hr
      exact rowAt_of_contents (congrFun (h.contents l hl) i) hr
  · by_cases hi : i = id
    · rw [hi, hf.self, hf'.self]
    · rw [hf.others i hi, hf'.others i hi]
      exact h.table_le i
  · intro x b b' hx hb hb' l hl slot hslot
    have hback : q.backing = p.backing := backing_congr (by rw [hf.prefixes])
    have hback' : q'.backing = p'.backing := backing_congr (by rw [hf'.prefixes])
    rw [hback] at hb
    rw [hback'] at hb'
    obtain ⟨-, hkept, -⟩ := mem_keptAfter.mp hx
    have hx := hkept.resolve_right fun hnew => hnew.1 (mem_links.mpr ⟨b, hb⟩)
    have hcell := h.cells hx hb hb' l hl slot hslot
    rwa [blockCell, blockCell, cell_congr hf'.keys hf'.values, cell_congr hf.keys hf.values]

theorem Burdened.clear {kept : List Link} (h : Burdened M c n kept p p') :
    ∃ q q', Pool.clearPrefixCache p = .ok () q ∧ Pool.clearPrefixCache p' = .ok () q' ∧
      Burdened M c n (keptAfter kept p p' q q') q q' := by
  obtain ⟨_, q, hrun, hw, hq⟩ := wp_returns (wp_clearPrefixCache h.wf)
  obtain ⟨_, q', hrun', hw', hq'⟩ := wp_returns (wp_clearPrefixCache h.wf')
  obtain ⟨hc, hempty⟩ := wp_ok (Counted.wp_clearPrefixCache h.counted) hrun
  obtain ⟨hc', hempty'⟩ := wp_ok (Counted.wp_clearPrefixCache h.counted') hrun'
  have hseqs : ∀ i, q.seqs i = p.seqs i := fun i => by rw [hq]
  have hseqs' : ∀ i, q'.seqs i = p'.seqs i := fun i => by rw [hq']
  have hkept : keptAfter kept p p' q q' = [] := by
    have hlinks : q.links = [] := by rw [links, hempty, List.map_nil]
    rw [keptAfter, hlinks, List.filter_nil]
  refine ⟨q, q', hrun, hrun', ?_⟩
  rw [hkept]
  refine ⟨hw, hc, hw', hc', fun i => ?_, fun l hl => ?_, fun i => ?_, fun hx => ?_,
    h.alike.clear hseqs hseqs' hempty hempty'⟩
  · rw [hseqs, hseqs', h.length]
  · funext i
    apply contents_congr (by rw [hseqs, hseqs', h.length])
    intro r hr
    rw [hseqs] at hr
    have hrow : q.rowAt c l i r = p.rowAt c l i r := rowAt_congr (by rw [hq]) (by rw [hq]) (by rw [hseqs]) l r
    have hrow' : q'.rowAt c l i r = p'.rowAt c l i r := rowAt_congr (by rw [hq']) (by rw [hq']) (by rw [hseqs']) l r
    rw [hrow, hrow']
    exact rowAt_of_contents (congrFun (h.contents l hl) i) hr
  · rw [hseqs, hseqs']
    exact h.table_le i
  · cases hx

theorem Burdened.register {kept : List Link} (h : Burdened M c n kept p p') {id : Nat} (hid : id < n)
    {tokens : List Int} (hlen : tokens.length ≤ (p.seqs id).length) (honce : ∀ b < c.numBlocks,
      ((finalState (Pool.registerPrefix c id tokens) p).Doubled b → p.Doubled b) ∧
        ((finalState (Pool.registerPrefix c id tokens) p').Doubled b → p'.Doubled b)) :
    ∃ q q', Pool.registerPrefix c id tokens p = .ok () q ∧ Pool.registerPrefix c id tokens p' = .ok () q' ∧
      Burdened M c n (keptAfter kept p p' q q') q q' := by
  have hlen' : tokens.length ≤ (p'.seqs id).length := hlen.trans_eq (h.length id).symm
  obtain ⟨_, q, hrun, hw, -⟩ := wp_returns (wp_registerPrefix hid h.wf hlen)
  obtain ⟨_, q', hrun', hw', -⟩ := wp_returns (wp_registerPrefix hid h.wf' hlen')
  have hc := (wp_ok (h.counted.wp_registerPrefix hid tokens) hrun).1
  have hc' := (wp_ok (h.counted'.wp_registerPrefix hid tokens) hrun').1
  have hr := wp_ok (h.counted.wp_registerPrefix_enrolled hid tokens) hrun
  have hr' := wp_ok (h.counted'.wp_registerPrefix_enrolled hid tokens) hrun'
  rw [finalState_of_ok hrun, finalState_of_ok hrun'] at honce
  refine ⟨q, q', hrun, hrun', hw, hc, hw', hc', fun i => ?_, fun l hl => ?_, fun i => ?_, ?_,
    h.alike.enrolled hid hr hr' (fun b hb => (honce b (doubled_lt hc hb)).1 hb)
      fun b hb => (honce b (doubled_lt hc' hb)).2 hb⟩
  · rw [hr.seqs, hr'.seqs, h.length]
  · funext i
    apply contents_congr (by rw [hr.seqs, hr'.seqs, h.length])
    intro r hlt
    rw [hr.seqs] at hlt
    rw [rowAt_congr hr.keys hr.values (by rw [hr.seqs]), rowAt_congr hr'.keys hr'.values (by rw [hr'.seqs])]
    exact rowAt_of_contents (congrFun (h.contents l hl) i) hlt
  · rw [hr.seqs, hr'.seqs]
    exact h.table_le i
  · intro x b b' hx hb hb' l hl slot hslot
    rw [blockCell, blockCell, cell_congr hr'.keys hr'.values, cell_congr hr.keys hr.values]
    obtain ⟨hx, hb, hb'⟩ | ⟨j, hj, hget, hget'⟩ := h.alike.entry_enrolled hr hr' hx hb hb'
    · exact h.cells hx hb hb' l hl slot hslot
    · apply h.blockCell_eq hget hget' hl hslot
      rw [c.length_spans] at hj
      have hle := (Nat.mul_le_mul_right c.blockSize hj).trans (Nat.div_mul_le_self _ _)
      rw [Nat.succ_mul] at hle
      omega

/-- A sequence that is not fresh, or for which nothing is cached, is given nothing. -/
theorem acquireSharedPrefix_of_shared_nil {id : Nat} {tokens : List Int} (hshared : p.shared c id tokens = []) :
    acquireSharedPrefix c id tokens p = .ok 0 p := by
  rw [shared] at hshared
  by_cases hfresh : p.seqs id = {}
  · rw [if_pos hfresh] at hshared
    have hloop : acquireFrom c id (c.spans tokens) 0 p = .ok 0 p := by
      cases hspans : c.spans tokens with
      | nil => rfl
      | cons span spans =>
        rw [hspans, matchChain] at hshared
        have hprobe := probe_eq (c := c) (hashBlock 0 span) 0 span (p.tick + 1) p.prefixes
        cases hfind : findEntry c (hashBlock 0 span) 0 span p.prefixes with
        | some e =>
          rw [hfind] at hshared
          cases hshared
        | none =>
          simp only [hfind] at hprobe
          rw [acquireFrom, get_bind, hprobe]
          rfl
    have hseqs : Function.update p.seqs id {} = p.seqs := by rw [← hfresh, Function.update_eq_self]
    rw [acquireSharedPrefix, get_bind, hfresh, if_neg (by simp), bind_of_ok hloop, modify_bind, hfresh]
    simp only [setSeq, hseqs, if_neg (Nat.lt_irrefl 0)]
    rfl
  · exact acquireSharedPrefix_of_not_fresh tokens (not_fresh hfresh)

theorem Burdened.acquire {kept : List Link} (h : Burdened M c n kept p p') {id : Nat} (hid : id < n)
    {tokens : List Int} (hlength : (p.shared c id tokens).length = (p'.shared c id tokens).length)
    (hkept : ∀ k < (p.shared c id tokens).length,
      (chainHash ((c.spans tokens).take k), (c.spans tokens).getD k []) ∈ kept) :
    ∃ m q q', acquireSharedPrefix c id tokens p = .ok m q ∧ acquireSharedPrefix c id tokens p' = .ok m q' ∧
      Burdened M c n (keptAfter kept p p' q q') q q' := by
  by_cases hnil : p.shared c id tokens = []
  · have hnil' : p'.shared c id tokens = [] := by
      rw [hnil] at hlength
      exact List.length_eq_zero_iff.mp hlength.symm
    refine ⟨0, p, p', acquireSharedPrefix_of_shared_nil hnil, acquireSharedPrefix_of_shared_nil hnil', ?_⟩
    exact h.grow h.wf h.counted h.wf' h.counted' (Kept.refl c p) (Kept.refl c p') h.wf.ahead h.wf'.ahead h.length
      h.contents h.table_le
  have hnil' : p'.shared c id tokens ≠ [] := by
    intro hnil'
    rw [hnil'] at hlength
    exact hnil (List.length_eq_zero_iff.mp hlength)
  have hfresh : p.seqs id = {} := by
    by_contra hne
    exact hnil (if_neg hne)
  have hfresh' : p'.seqs id = {} := by
    by_contra hne
    exact hnil' (if_neg hne)
  rw [shared, shared, if_pos hfresh, if_pos hfresh'] at hlength
  rw [shared, if_pos hfresh] at hkept
  obtain ⟨m, q, hrun, hm, hw, ha, hlen⟩ := wp_returns (wp_acquireSharedPrefix hid tokens h.wf hfresh)
  obtain ⟨m', q', hrun', hm', hw', ha', hlen'⟩ := wp_returns (wp_acquireSharedPrefix hid tokens h.wf' hfresh')
  have hc := (wp_ok (h.counted.wp_acquireSharedPrefix hid tokens hfresh) hrun).1
  have hc' := (wp_ok (h.counted'.wp_acquireSharedPrefix hid tokens hfresh') hrun').1
  rw [← hlength] at hm'
  have hlink : ∀ k < (matchChain c p.prefixes (c.spans tokens) 0).length, ∀ x, HasLink (c.spans tokens) k x →
      x ∈ kept := by
    intro k hk x hx
    have hmem := hkept k hk
    rw [List.getD_eq_getElem?_getD, hx.2, ← hx.1] at hmem
    exact hmem
  have halike := h.alike.acquired hlink hfresh hfresh' ha ha'
  have hcells : ∀ {x b b'}, x ∈ keptAfter kept p p' q q' → (x, b) ∈ q.backing → (x, b') ∈ q'.backing →
      ∀ l < M.config.numHiddenLayers, ∀ slot < c.blockSize, q'.blockCell c l b' slot = q.blockCell c l b slot := by
    intro x b b' hx hb hb' l hl slot hslot
    rw [backing_congr ha.prefixes] at hb
    rw [backing_congr ha'.prefixes] at hb'
    obtain ⟨-, hkept, -⟩ := mem_keptAfter.mp hx
    have hx := hkept.resolve_right fun hnew => hnew.1 (mem_links.mpr ⟨b, hb⟩)
    have hcell := h.cells hx hb hb' l hl slot hslot
    rwa [blockCell, blockCell, cell_congr ha'.keys ha'.values, cell_congr ha.keys ha.values]
  refine ⟨m, q, q', hrun, by rw [hrun', hm, hm'], hw, hc, hw', hc', fun i => ?_, fun l hl => ?_, fun i => ?_, hcells,
    halike⟩
  · by_cases hi : i = id
    · rw [hi, hlen, hlen', hm, hm']
    · rw [ha.others i hi, ha'.others i hi, h.length]
  · funext i
    apply contents_congr
    · by_cases hi : i = id
      · rw [hi, hlen, hlen', hm, hm']
      · rw [ha.others i hi, ha'.others i hi, h.length]
    · intro r hr
      by_cases hi : i = id
      · -- the row lies in one of the blocks that were taken over
        subst hi
        rw [hlen, hm] at hr
        have hk : r / c.blockSize < (matchChain c p.prefixes (c.spans tokens) 0).length :=
          (Nat.div_lt_iff_lt_mul c.blockSize_pos).mpr hr
        have hget := List.getElem?_eq_getElem hk
        have hget' := List.getElem?_eq_getElem (hk.trans_eq hlength)
        obtain ⟨x, hx, hb, hb'⟩ := entry_of_matchChain hlink hget hget'
        have hcell := h.cells hx hb hb' l hl (r % c.blockSize) (Nat.mod_lt _ c.blockSize_pos)
        rw [rowAt_eq_blockCell, rowAt_eq_blockCell, ha.table, ha'.table, hfresh, hfresh', List.nil_append,
          List.nil_append, List.getD_eq_getElem?_getD, List.getD_eq_getElem?_getD, hget, hget']
        rwa [blockCell, blockCell, cell_congr ha'.keys ha'.values, cell_congr ha.keys ha.values]
      · rw [ha.rowAt hi, ha'.rowAt hi]
        rw [ha.others i hi] at hr
        exact rowAt_of_contents (congrFun (h.contents l hl) i) hr
  · by_cases hi : i = id
    · rw [hi, ha.table, ha'.table, hfresh, hfresh', List.length_append, List.length_append, hlength]
    · rw [ha.others i hi, ha'.others i hi]
      exact h.table_le i

/-- A call that returns with the blocks of failed batches returns without them; one that throws changes nothing that
matters. -/
theorem Burdened.call {kept : List Link} (h : Burdened M c n kept p p') (hnorm : M.weights normKey ≠ none)
    {call : BatchOp K} (hcall : call.Alongside c n M.config.numHiddenLayers kept p p') :
    wp (M.run c call)
      (fun _ q' => ∃ q, M.run c call p = .ok () q ∧ Burdened M c n (keptAfter kept p p' q q') q q')
      (fun _ q' => Burdened M c n (keptAfter kept p p' p q') p q') p' := by
  cases call with
  | forward items =>
    rw [run, wp_bind]
    cases hrun : M.forwardBatch c items p' with
    | ok logits q' =>
      obtain ⟨q, hrun', hq⟩ := h.serve hcall hrun
      exact wp_of_ok hrun ⟨q, bind_of_ok hrun' _, hq⟩
    | error e q' =>
      have he : M.get normKey ≠ .error e := by
        obtain ⟨w, hw⟩ := Option.ne_none_iff_exists'.mp hnorm
        rw [get_eq_of_some hw]
        simp
      have hdrop := h.drop (dropped_of_error h.wf' h.counted' hcall hrun he)
      rw [wp, hrun]
      exact hdrop
  | pool op =>
    rw [run]
    cases op with
    | reserve id nNew => exact h.reserve hcall
    | write id layer start k v len => exact ⟨_, rfl, h.write hcall.1 hcall.2⟩
    | commit id len => exact ⟨_, rfl, h.commit hcall.1 hcall.2.1 hcall.2.2⟩
    | free id =>
      obtain ⟨q, q', hrun, hrun', hq⟩ := h.free hcall
      exact wp_of_ok hrun' ⟨q, hrun, hq⟩
    | acquire id tokens =>
      obtain ⟨m, q, q', hrun, hrun', hq⟩ := h.acquire hcall.1 hcall.2.1 hcall.2.2
      rw [PoolOp.run, wp_bind]
      exact wp_of_ok hrun' ⟨q, bind_of_ok hrun _, hq⟩
    | register id tokens =>
      obtain ⟨q, q', hrun, hrun', hq⟩ := h.register hcall.1 hcall.2.1 hcall.2.2
      exact wp_of_ok hrun' ⟨q, hrun, hq⟩
    | clear =>
      obtain ⟨q, q', hrun, hrun', hq⟩ := h.clear
      exact wp_of_ok hrun' ⟨q, hrun, hq⟩

theorem Burdened.along (hnorm : M.weights normKey ≠ none) {calls : List (BatchOp K)} {kept : List Link}
    (h : Burdened M c n kept p p') (hcalls : M.Along c n kept calls p p') :
    ∃ kept', Burdened M c n kept' (M.after c (M.answered c calls p') p) (M.after c calls p') := by
  induction calls generalizing kept p p' with
  | nil => exact ⟨kept, h⟩
  | cons call calls ih =>
    obtain ⟨hcall, hrest⟩ := hcalls
    have hstep := h.call hnorm hcall
    cases hrun' : M.run c call p' with
    | ok _ q' =>
      obtain ⟨q, hrun, hq⟩ := wp_ok hstep hrun'
      simp only [hrun', finalState_of_ok hrun] at hrest
      rw [answered, hrun']
      simp only [after, List.foldl_cons, finalState_of_ok hrun, finalState_of_ok hrun']
      exact ih hq hrest
    | error e q' =>
      have hq := wp_error hstep hrun'
      simp only [hrun'] at hrest
      rw [answered, hrun']
      simp only [after, List.foldl_cons, finalState, hrun']
      exact ih hq hrest

/-- Without the last norm no batch returns. -/
theorem norm_of_forwardBatch {items : List BatchItem} {logits : Rows K} {q : Pool K}
    (hrun : M.forwardBatch c items p = .ok logits q) : M.weights normKey ≠ none := by
  have hpost : wp (M.forwardBatch c items) (fun _ _ => M.weights normKey ≠ none) (fun _ _ => True) p := by
    rw [forwardBatch]
    by_cases hitems : items = []
    · simp only [hitems, if_true, wp_bind, wp_throw]
    simp only [hitems, if_false, wp_bind, wp_pure]
    refine wp_mono (wp_true _) (fun laid _ _ => ?_) fun _ _ ht => ht
    simp only [wp_lift]
    refine ⟨fun embed _ => ⟨fun x _ => ?_, fun _ _ => trivial⟩, fun _ _ => trivial⟩
    refine wp_mono (wp_true _) (fun y _ _ => ?_) fun _ _ ht => ht
    refine wp_mono (wp_true _) (fun _ _ _ => ?_) fun _ _ ht => ht
    refine ⟨fun normed hnormed => ?_, fun _ _ => trivial⟩
    obtain ⟨w, hw⟩ := norm_of_finalNorm hnormed
    rw [hw]
    exact Option.some_ne_none w
  have hnorm := wp_ok hpost hrun
  exact hnorm

/-- Two prefixes are in the cache, and two of four blocks free. -/
def twoCached : Pool ℚ :=
  tiny.after tinyPool [.forward [⟨some 0, [1, 1]⟩], .pool (.register 0 [1, 1]), .pool (.free 0),
    .forward [⟨some 0, [2, 2]⟩], .pool (.register 0 [2, 2]), .pool (.free 0)] (.create tinyPool)

/-- The first item takes three blocks, and the second has no sequence. -/
def overlong : List BatchItem := [⟨some 1, [0, 0, 0, 0, 0]⟩, ⟨none, [1]⟩]

theorem twoCached_reachable : (tiny.serving tinyPool).Reachable (fun p op => op.Within tinyPool 2 p) twoCached := by
  have hitems : ∀ (t : Int) (p : Pool ℚ), (BatchOp.forward [⟨some 0, [t, t]⟩]).Within tinyPool 2 p := fun _ _ =>
    ⟨by simp [itemFeeds], by simp [itemFeeds]⟩
  have hfree : ∀ p : Pool ℚ, (BatchOp.pool (.free 0)).Within tinyPool 2 p := fun _ => Nat.zero_lt_two
  have hstart : (tiny.serving tinyPool).Reachable (fun p op => op.Within tinyPool 2 p) (.create tinyPool) := .start
  have hfed := hstart.next (hitems 1 _)
  have hregister : (BatchOp.pool (.register 0 [1, 1])).Within tinyPool 2
      ((tiny.serving tinyPool).next (.create tinyPool) (.forward [⟨some 0, [1, 1]⟩])) :=
    ⟨Nat.zero_lt_two, by decide +kernel⟩
  have hfirst := ((hfed.next hregister).next (hfree _)).next (hitems 2 _)
  have hregister' : (BatchOp.pool (.register 0 [2, 2])).Within tinyPool 2
      (tiny.after tinyPool [.forward [⟨some 0, [1, 1]⟩], .pool (.register 0 [1, 1]), .pool (.free 0),
        .forward [⟨some 0, [2, 2]⟩]] (.create tinyPool)) :=
    ⟨Nat.zero_lt_two, by decide +kernel⟩
  exact (hfirst.next hregister').next (hfree _)

/-- **A failed batch commits nothing.** After any run, a batch that throws, if not for the last norm, leaves the
committed rows of every sequence, and reference counts that are those of the tables and the cache. The blocks it
took stand each in one table and go back with it, and a batch that returns after any calls alongside returns what it
would have returned without it. -/
theorem failed_forwardBatch [Zero K] {c : PoolConfig} (hp : (M.serving c).Reachable (fun p op => op.Within c n p) p)
    {items : List BatchItem} (hvalid : ValidItems n items) {e : Error} {p' : Pool K}
    (hrun : M.forwardBatch c items p = .error e p') (he : M.get normKey ≠ .error e) :
    (∀ i, (p'.seqs i).length = (p.seqs i).length ∧
      ∀ layer, p'.gatherKeys c i layer (p.seqs i).length = p.gatherKeys c i layer (p.seqs i).length ∧
        p'.gatherValues c i layer (p.seqs i).length = p.gatherValues c i layer (p.seqs i).length) ∧
    (∀ b, p'.alloc.refCount b = (∑ i ∈ Finset.range n, (p'.seqs i).blockTable.count b) +
      p'.prefixes.countP fun e => e.2.block = b) ∧
    (∃ taken, Took ((itemFeeds items).map Prod.fst) taken p p') ∧
    ∀ calls, M.Along c n (keptAfter p.links p p p p') calls p p' → ∀ later, ValidItems n later → ∀ logits,
      outcome (M.forwardBatch c later) (M.after c calls p') = .ok logits →
        outcome (M.forwardBatch c later) (M.after c (M.answered c calls p') p) = .ok logits := by
  obtain ⟨hw, hc⟩ := sound_reachable hp
  have hd := dropped_of_error hw hc hvalid hrun he
  refine ⟨fun i => ⟨hd.length i, fun layer => ?_⟩, fun b => ?_, hd.took hw,
    fun calls hcalls later hlater logits hlogits => ?_⟩
  · have hold := gather_committed (c := c) (p := p) layer i
    have hnew := gather_committed (c := c) (p := p') layer i
    rw [hd.contents, hd.length] at hnew
    rw [hnew.1, hnew.2, hold.1, hold.2]
    exact ⟨rfl, rfl⟩
  · rw [hd.wf.tracked.refCount_eq, count_refs]
  · have hreturns := ok_of_outcome hlogits
    obtain ⟨kept', hafter⟩ := ((Burdened.refl M hw hc).drop hd).along (norm_of_forwardBatch hreturns) hcalls
    obtain ⟨q, hrun', -⟩ := hafter.serve hlater hreturns
    exact outcome_of_ok hrun'

/-- The failed batch has evicted a prefix; another is registered since and shared. -/
theorem failed_forwardBatch_evicted :
    let p := twoCached
    let p' := finalState (tiny.forwardBatch tinyPool overlong) p
    let calls := [.pool (.free 1), .forward [⟨some 0, [0, 2]⟩], .pool (.register 0 [0, 2]),
      .pool (.acquire 1 [0, 2, 0])]
    p.prefixes.length = 2 ∧ p'.prefixes.length = 1 ∧
      outcome (tiny.forwardBatch tinyPool [⟨some 1, [0]⟩]) (tiny.after tinyPool (tiny.answered tinyPool calls p') p) =
        .ok [[0, 0, 1]] := by
  refine ⟨by decide +kernel, by decide +kernel, ?_⟩
  have hrun : outcome (tiny.forwardBatch tinyPool overlong) twoCached =
      .error (.invalidArgument "forward_batch: null sequence blocks") := by decide +kernel
  have hfailed := failed_forwardBatch twoCached_reachable ⟨by decide, by decide⟩ (error_of_outcome hrun)
    (by decide +kernel)
  exact hfailed.2.2.2 _ (by decide +kernel) [⟨some 1, [0]⟩] ⟨by decide, by decide⟩ _ (by decide +kernel)

/-- The batch shows when one of its sequences acquires a prefix, when a sequence acquires the prefix it has evicted,
when rows are committed that nobody wrote, and when the evicted prefix is registered anew, then evicted without the
batch only, and a block put under its hash and another. -/
theorem seen_after_failed_forwardBatch :
    let p := twoCached
    let p' := finalState (tiny.forwardBatch tinyPool overlong) p
    let later (id : Nat) (tokens : List Int) (calls : List (BatchOp ℚ)) (p : Pool ℚ) :=
      outcome (tiny.forwardBatch tinyPool [⟨some id, tokens⟩]) (tiny.after tinyPool calls p)
    let acquired := [.pool (.acquire 1 [1, 1, 0])]
    let evicted := [.pool (.free 1), .pool (.acquire 0 [1, 1, 0])]
    let unwritten := [.pool (.free 1), .pool (.reserve 0 1), .pool (.commit 0 1)]
    let doubled := [.pool (.free 1), .forward [⟨some 0, [1, 1]⟩], .pool (.register 0 [1, 1]), .pool (.free 0),
      .forward [⟨some 0, [0, 1, 0, 1, 0, 1]⟩], .pool (.register 0 [0, 1]), .pool (.register 0 [1, 1]), .pool (.free 0)]
    (tiny.serving tinyPool).Reachable (fun p op => op.Within tinyPool 2 p) p ∧
      outcome (tiny.forwardBatch tinyPool overlong) p =
        .error (.invalidArgument "forward_batch: null sequence blocks") ∧
      (later 1 [0] acquired p' = .ok [[1, 0, 0]] ∧ later 1 [0] acquired p = .ok [[0, 0, 1]]) ∧
      (later 0 [0] evicted p' = .ok [[1, 0, 0]] ∧ later 0 [0] evicted p = .ok [[0, 0, 1]]) ∧
      (later 0 [0] unwritten p' = .ok [[0, 1, 0]] ∧ later 0 [0] unwritten p = .ok [[1, 0, 0]]) ∧
      later 0 [0, 0, 0, 0, 0, 0, 0] doubled p' = .ok [[1, 0, 0]] ∧
        later 0 [0, 0, 0, 0, 0, 0, 0] doubled p = .error (.runtimeError "BlockAllocator: out of blocks") := by
  refine ⟨twoCached_reachable, ?_⟩
  decide +kernel

end Model

end InferenceEngine
