import InferenceEngine.KvCache.Counted
import InferenceEngine.Library.Ranking

/-!
# Reserving and evicting

The blocks a pool can hand out are the free ones, from the top of the free list, and behind them the ones
the cache can give up, least recently used first. `reserve` takes its blocks from the front of that supply.
-/

namespace InferenceEngine

open Exec Ranking

namespace Pool

variable {K : Type} {c : PoolSizes} {n : Nat} {p p' : Pool K}

/-- The entries whose block only the cache holds. -/
def evictable (p : Pool K) : List (Hash × PrefixEntry) :=
  p.prefixes.filter fun e => p.alloc.refCount e.2.block = 1

/-- They in the order of their last use. -/
def evictionOrder (p : Pool K) : List (Hash × PrefixEntry) := ranking (fun e => e.2.lastUsed) p.evictable

/-- The blocks a pool can hand out, in the order in which it does. -/
def supply (p : Pool K) : List Nat := p.alloc.freeList ++ p.evictionOrder.map fun e => e.2.block

theorem length_supply (p : Pool K) : p.supply.length = p.freeBlocks + p.evictable.length := by
  rw [supply, List.length_append, List.length_map, evictionOrder, length_ranking]
  rfl

/-! ### The victim -/

/-- The scan of `evict_lru` finds a least recently used entry among those it may drop. -/
theorem lruVictim_spec (a : BlockAllocator) (es : List (Hash × PrefixEntry)) :
    match lruVictim a es with
    | none => ∀ e ∈ es, a.refCount e.2.block ≠ 1
    | some v => v ∈ es ∧ a.refCount v.2.block = 1 ∧
        ∀ e ∈ es, a.refCount e.2.block = 1 → v.2.lastUsed ≤ e.2.lastUsed := by
  induction es using List.reverseRecOn with
  | nil => exact nofun
  | append_singleton es x ih =>
    rw [lruVictim, List.foldl_append, ← lruVictim, List.foldl_cons, List.foldl_nil]
    cases hv : lruVictim a es with
    | none =>
      simp only [hv] at ih ⊢
      split
      · rename_i hnone
        intro e he hone
        rcases List.mem_append.mp he with he | he
        · exact ih e he hone
        · rw [List.mem_singleton.mp he] at hone
          simp [hone] at hnone
      · rename_i v hsome
        have hone : a.refCount x.2.block = 1 := by
          by_contra hne
          simp [hne] at hsome
        rw [if_pos hone, Option.some.injEq] at hsome
        subst hsome
        refine ⟨by simp, hone, fun e he hone' => ?_⟩
        rcases List.mem_append.mp he with he | he
        · exact absurd hone' (ih e he)
        · rw [List.mem_singleton.mp he]
    | some v =>
      simp only [hv] at ih ⊢
      obtain ⟨hmem, hone, hle⟩ := ih
      by_cases hx : a.refCount x.2.block = 1 ∧ x.2.lastUsed < v.2.lastUsed
      · rw [if_pos hx]
        refine ⟨by simp, hx.1, fun e he hone' => ?_⟩
        rcases List.mem_append.mp he with he | he
        · exact hx.2.le.trans (hle e he hone')
        · rw [List.mem_singleton.mp he]
      · rw [if_neg hx]
        refine ⟨List.mem_append_left _ hmem, hone, fun e he hone' => ?_⟩
        rcases List.mem_append.mp he with he | he
        · exact hle e he hone'
        · rw [List.mem_singleton.mp he] at hone' ⊢
          exact not_lt.mp fun hlt => hx ⟨hone', hlt⟩

namespace Counted

theorem evictable_ticks (h : p.Counted c n) : (p.evictable.map fun e => e.2.lastUsed).Nodup :=
  h.ticked.nodup.sublist (List.filter_sublist.map _)

theorem prefixes_nodup (h : p.Counted c n) : p.prefixes.Nodup := List.Nodup.of_map _ h.links

/-- The scan finds the first in the order of eviction, whatever the order of the scan. -/
theorem lruVictim_eq (h : p.Counted c n) : lruVictim p.alloc p.prefixes = p.evictionOrder.head? := by
  have hspec := lruVictim_spec p.alloc p.prefixes
  cases hv : lruVictim p.alloc p.prefixes with
  | none =>
    simp only [hv] at hspec
    have hnil : p.evictable = [] := by
      rw [evictable, List.filter_eq_nil_iff]
      intro e he
      simpa using hspec e he
    rw [evictionOrder, hnil]
    rfl
  | some v =>
    simp only [hv] at hspec
    obtain ⟨hmem, hone, hle⟩ := hspec
    have hv : v ∈ p.evictable := List.mem_filter.mpr ⟨hmem, by simpa using hone⟩
    rw [evictionOrder, ranking_of_least h.evictable_ticks hv]
    · rfl
    · intro e he
      rw [evictable, List.mem_filter, decide_eq_true_iff] at he
      exact hle e he.1 he.2

theorem evictionOrder_erase (h : p.Counted c n) {v : Hash × PrefixEntry} {rest : List (Hash × PrefixEntry)}
    (horder : p.evictionOrder = v :: rest) :
    ({ p with prefixes := p.prefixes.erase v } : Pool K).evictionOrder = rest := by
  have hv : v ∈ p.evictable := by
    have hmem : v ∈ p.evictionOrder := by rw [horder]; exact List.mem_cons_self
    rw [evictionOrder] at hmem
    exact mem_ranking.mp hmem
  have hsorted := pairwise_ranking h.evictable_ticks
  change p.evictionOrder.Pairwise _ at hsorted
  rw [horder, List.pairwise_cons] at hsorted
  apply ranking_eq_of_pairwise hsorted.2
  have hfilter : ({ p with prefixes := p.prefixes.erase v } : Pool K).evictable = p.evictable.erase v := by
    rw [evictable, evictable, h.prefixes_nodup.erase_eq_filter, List.filter_filter,
      (h.prefixes_nodup.filter _).erase_eq_filter, List.filter_filter]
    exact List.filter_congr fun e _ => Bool.and_comm _ _
  rw [hfilter]
  have hperm : p.evictable.Perm (v :: rest) := horder ▸ (ranking_perm _ p.evictable).symm
  exact (List.perm_cons_erase hv).symm.trans hperm |>.cons_inv

/-! ### One block -/

theorem allocateBlock_of_free {b : Nat} {rest : List Nat} (hfree : p.alloc.freeList = b :: rest) :
    allocateBlock p = .ok b { p with alloc := ⟨rest, Function.update p.alloc.refCount b 1⟩ } := by
  have hpos : p.alloc.numFree ≠ 0 := by rw [BlockAllocator.numFree, hfree]; exact Nat.succ_ne_zero _
  have hallocate : p.alloc.allocate = .ok (b, ⟨rest, Function.update p.alloc.refCount b 1⟩) := by
    rw [BlockAllocator.allocate, hfree]
  simp only [allocateBlock, get_bind, if_neg hpos, lift_bind_of_ok hallocate]
  rfl

/-- With none free, the first entry in the order of eviction gives its block, and the counts end as they were. -/
theorem allocateBlock_of_evict (h : p.Counted c n) (hfree : p.alloc.freeList = [])
    {v : Hash × PrefixEntry} {rest : List (Hash × PrefixEntry)} (horder : p.evictionOrder = v :: rest) :
    allocateBlock p = .ok v.2.block { p with prefixes := p.prefixes.erase v } := by
  have hzero : p.alloc.numFree = 0 := by rw [BlockAllocator.numFree, hfree]; rfl
  have hvictim : lruVictim p.alloc p.prefixes = some v := by rw [h.lruVictim_eq, horder]; rfl
  have hone := (lruVictim_some hvictim).2
  have hreturn : p.alloc.free v.2.block =
      .ok ⟨[v.2.block], Function.update p.alloc.refCount v.2.block 0⟩ := by
    rw [BlockAllocator.free, hone, hfree]
    rfl
  have hsame : Function.update (Function.update p.alloc.refCount v.2.block 0) v.2.block 1 = p.alloc.refCount := by
    rw [Function.update_idem, ← hone, Function.update_eq_self]
  have hevict : evictLru p = .ok ⟨⟩ { p with
      alloc := ⟨[v.2.block], Function.update p.alloc.refCount v.2.block 0⟩
      prefixes := p.prefixes.erase v } := by
    rw [evictLru, get_bind, hvictim]
    have hgive : onAlloc (fun a => a.free v.2.block) p = .ok ⟨⟩ { p with
        alloc := ⟨[v.2.block], Function.update p.alloc.refCount v.2.block 0⟩ } := by
      rw [onAlloc, get_bind, lift_bind_of_ok hreturn]
      rfl
    exact bind_of_ok hgive _
  have hallocate : (⟨[v.2.block], Function.update p.alloc.refCount v.2.block 0⟩ : BlockAllocator).allocate =
      .ok (v.2.block, p.alloc) := by
    rw [BlockAllocator.allocate]
    simp only [hsame]
    rw [← hfree]
  simp only [allocateBlock, get_bind, if_pos hzero, bind_of_ok hevict, lift_bind_of_ok hallocate]
  rfl

theorem allocateBlock_of_none (h : p.Counted c n) (hfree : p.alloc.freeList = [])
    (horder : p.evictionOrder = []) :
    allocateBlock p = .error (.runtimeError "BlockAllocator: out of blocks") p := by
  have hzero : p.alloc.numFree = 0 := by rw [BlockAllocator.numFree, hfree]; rfl
  have hvictim : lruVictim p.alloc p.prefixes = none := by rw [h.lruVictim_eq, horder]; rfl
  have hevict : evictLru p = .ok ⟨⟩ p := by
    rw [evictLru, get_bind, hvictim]
    rfl
  simp only [allocateBlock, get_bind, if_pos hzero, bind_of_ok hevict,
    lift_bind_of_error (BlockAllocator.allocate_error hzero)]

end Counted

/-! ### Reserving -/

/-- Sequence `id` has taken the first `k` blocks of the supply. -/
structure Taken (id k : Nat) (p p' : Pool K) : Prop where
  keys : p'.keys = p.keys
  values : p'.values = p.values
  tick : p'.tick = p.tick
  prefixHits : p'.prefixHits = p.prefixHits
  self : p'.seqs id = ⟨(p.seqs id).blockTable ++ p.supply.take k, (p.seqs id).length⟩
  others : ∀ i, i ≠ id → p'.seqs i = p.seqs i
  freeList : p'.alloc.freeList = p.alloc.freeList.drop k
  refCount : p'.alloc.refCount = fun b => if b ∈ p.alloc.freeList.take k then 1 else p.alloc.refCount b
  prefixes : p'.prefixes = p.prefixes.filter fun e => e ∉ p.evictionOrder.take (k - p.freeBlocks)
  order : p'.evictionOrder = p.evictionOrder.drop (k - p.freeBlocks)

theorem Taken.refl (id : Nat) (p : Pool K) : Taken id 0 p p where
  keys := rfl
  values := rfl
  tick := rfl
  prefixHits := rfl
  self := by simp
  others _ _ := rfl
  freeList := rfl
  refCount := by simp
  prefixes := by simp
  order := by simp

/-- The order of eviction depends on the entries and the counts of their blocks. -/
theorem evictionOrder_congr (hprefixes : p'.prefixes = p.prefixes)
    (hcount : ∀ e ∈ p.prefixes, p'.alloc.refCount e.2.block = p.alloc.refCount e.2.block) :
    p'.evictionOrder = p.evictionOrder := by
  have hsame : p'.evictable = p.evictable := by
    rw [evictable, evictable, hprefixes]
    exact List.filter_congr fun e he => by rw [hcount e he]
  rw [evictionOrder, evictionOrder, hsame]

theorem getElem?_of_drop_eq_cons {α : Type} {l rest : List α} {k : Nat} {a : α} (h : l.drop k = a :: rest) :
    l[k]? = some a := by
  rw [← List.head?_drop, h, List.head?_cons]

theorem drop_succ_of_drop_eq_cons {α : Type} {l rest : List α} {k : Nat} {a : α} (h : l.drop k = a :: rest) :
    l.drop (k + 1) = rest := by
  rw [← List.tail_drop, h, List.tail_cons]

namespace Taken

variable {q : Pool K} {id k : Nat}

theorem of_free (h : Taken id k p q) (hq : q.Counted c n) (hid : id < n) {b : Nat} {rest : List Nat}
    (hfree : q.alloc.freeList = b :: rest) {q' : Pool K}
    (hq' : q' = ({ q with alloc := ⟨rest, Function.update q.alloc.refCount b 1⟩ } : Pool K).pushBlock id b) :
    q'.Counted c n ∧ Taken id (k + 1) p q' := by
  have hdrop : p.alloc.freeList.drop k = b :: rest := h.freeList.symm.trans hfree
  have hb := getElem?_of_drop_eq_cons hdrop
  have hk : k < p.freeBlocks := (List.getElem?_eq_some_iff.mp hb).1
  have hsupply : p.supply[k]? = some b := by rw [supply, List.getElem?_append_left hk, hb]
  have hself : q'.seqs id = ⟨(q.seqs id).blockTable ++ [b], (q.seqs id).length⟩ := by
    rw [hq', pushBlock, setSeq_seqs_self]
  have hothers : ∀ i, i ≠ id → q'.seqs i = q.seqs i := by
    intro i hi
    rw [hq', pushBlock, setSeq_seqs_of_ne _ _ hi]
  obtain ⟨b', a, hallocate, hnot, ht, -⟩ := hq.tracked.allocate_eq (by
    rw [BlockAllocator.numFree, hfree]
    exact Nat.succ_ne_zero _)
  rw [BlockAllocator.allocate, hfree, Except.ok.injEq, Prod.mk.injEq] at hallocate
  obtain ⟨rfl, rfl⟩ := hallocate
  -- no entry has a free block
  have horder : q'.evictionOrder = q.evictionOrder := by
    apply evictionOrder_congr
    · rw [hq']
      rfl
    · intro e he
      have hne : e.2.block ≠ b := by
        rintro rfl
        exact hnot (mem_refs_of_mem_prefixes he)
      rw [hq']
      exact Function.update_of_ne hne _ _
  have hsub : k + 1 - p.freeBlocks = k - p.freeBlocks := by omega
  constructor
  · apply hq.congr
    · rw [Tracked, hq', refs_pushBlock hid]
      exact ht
    · exact fun i hi => hothers i (by omega)
    · rw [hq']
      rfl
    · rw [hq']
      rfl
  · refine ⟨by rw [hq']; exact h.keys, by rw [hq']; exact h.values, by rw [hq']; exact h.tick,
      by rw [hq']; exact h.prefixHits, ?_, fun i hi => (hothers i hi).trans (h.others i hi), ?_, ?_, ?_, ?_⟩
    · rw [hself, h.self, List.take_add_one, hsupply, Option.toList_some, List.append_assoc]
    · rw [hq', drop_succ_of_drop_eq_cons hdrop]
      rfl
    · rw [hq']
      change Function.update q.alloc.refCount b 1 = _
      funext x
      have hmem : x ∈ p.alloc.freeList.take (k + 1) ↔ x ∈ p.alloc.freeList.take k ∨ x = b := by
        rw [List.take_add_one, hb, Option.toList_some, List.mem_append, List.mem_singleton]
      by_cases hx : x = b
      · rw [if_pos (hmem.mpr (.inr hx)), hx, Function.update_self]
      · rw [Function.update_of_ne hx, h.refCount]
        simp only [hmem, hx, or_false]
    · rw [hsub, ← h.prefixes, hq']
      rfl
    · rw [hsub, horder, h.order]

/-- The next block is that of the first entry in the order of eviction. -/
theorem of_evict (h : Taken id k p q) (hq : q.Counted c n) (hid : id < n) (hfree : q.alloc.freeList = [])
    {v : Hash × PrefixEntry} {rest : List (Hash × PrefixEntry)} (horder : q.evictionOrder = v :: rest)
    {q' : Pool K} (hq' : q' = ({ q with prefixes := q.prefixes.erase v } : Pool K).pushBlock id v.2.block) :
    q'.Counted c n ∧ Taken id (k + 1) p q' := by
  have hk : p.freeBlocks ≤ k := List.drop_eq_nil_iff.mp (h.freeList.symm.trans hfree)
  have hdrop : p.evictionOrder.drop (k - p.freeBlocks) = v :: rest := h.order.symm.trans horder
  have hv := getElem?_of_drop_eq_cons hdrop
  have hsub : k + 1 - p.freeBlocks = k - p.freeBlocks + 1 := by omega
  have hsupply : p.supply[k]? = some v.2.block := by
    rw [supply, List.getElem?_append_right hk]
    change (p.evictionOrder.map _)[k - p.freeBlocks]? = _
    rw [List.getElem?_map, hv]
    rfl
  have hmem : v ∈ q.prefixes := by
    have hmem : v ∈ q.evictionOrder := by rw [horder]; exact List.mem_cons_self
    rw [evictionOrder] at hmem
    exact (List.mem_filter.mp (mem_ranking.mp hmem)).1
  have hrefs : q'.refs n = q.refs n := by
    have hcache : q.cacheRefs = v.2.block ::ₘ ((q.prefixes.erase v).map fun e => e.2.block : List Nat) := by
      rw [cacheRefs, Multiset.cons_coe, Multiset.coe_eq_coe]
      exact (List.perm_cons_erase hmem).map _
    have hold : q.refs n = v.2.block ::ₘ ({ q with prefixes := q.prefixes.erase v } : Pool K).refs n := by
      rw [refs, hcache, Multiset.add_cons]
      rfl
    rw [hq', refs_pushBlock hid, hold]
  have hself : q'.seqs id = ⟨(q.seqs id).blockTable ++ [v.2.block], (q.seqs id).length⟩ := by
    rw [hq', pushBlock, setSeq_seqs_self]
  have hothers : ∀ i, i ≠ id → q'.seqs i = q.seqs i := by
    intro i hi
    rw [hq', pushBlock, setSeq_seqs_of_ne _ _ hi]
  constructor
  · apply hq.sublist
    · rw [Tracked, hrefs, hq']
      exact hq.tracked
    · exact fun i hi => hothers i (by omega)
    · rw [hq']
      exact List.erase_sublist
    · rw [hq']
      rfl
  · refine ⟨by rw [hq']; exact h.keys, by rw [hq']; exact h.values, by rw [hq']; exact h.tick,
      by rw [hq']; exact h.prefixHits, ?_, fun i hi => (hothers i hi).trans (h.others i hi), ?_, ?_, ?_, ?_⟩
    · rw [hself, h.self, List.take_add_one, hsupply, Option.toList_some, List.append_assoc]
    · rw [hq']
      change q.alloc.freeList = _
      rw [hfree, List.drop_eq_nil_of_le (hk.trans (Nat.le_succ k))]
    · rw [hq']
      change q.alloc.refCount = _
      rw [h.refCount, List.take_of_length_le hk, List.take_of_length_le (hk.trans (Nat.le_succ k))]
    · have hprefixes : q'.prefixes = q.prefixes.erase v := by rw [hq']; rfl
      rw [hprefixes, hq.prefixes_nodup.erase_eq_filter, h.prefixes, List.filter_filter, hsub, List.take_add_one, hv]
      apply List.filter_congr
      intro e _
      simp only [Option.toList_some, List.mem_append, List.mem_singleton, not_or, Bool.decide_and, bne,
        Bool.and_comm]
      by_cases hev : e = v <;> simp [hev]
    · rw [hq', hsub, drop_succ_of_drop_eq_cons hdrop]
      exact hq.evictionOrder_erase horder

end Taken

/-- The loop of `reserve` takes its blocks from the front of the supply, and throws when there are too few. -/
theorem Counted.wp_takeBlocks (h : p.Counted c n) {id : Nat} (hid : id < n) (d : Nat) :
    wp (forM (List.range d) fun _ => do
        let block ← allocateBlock
        modify fun p => p.pushBlock id block : EStateM Error (Pool K) Unit)
      (fun _ p' => p'.Counted c n ∧ d ≤ p.supply.length ∧ Taken id d p p')
      (fun e p' => e = .runtimeError "BlockAllocator: out of blocks" ∧ p'.Counted c n ∧ p.supply.length < d ∧
        Taken id p.supply.length p p') p := by
  have hloop := wp_forM (f := fun _ : Nat => (do
      let block ← allocateBlock
      modify fun p => p.pushBlock id block : EStateM Error (Pool K) Unit))
    (I := fun (todo : List Nat) q => q.Counted c n ∧ ∃ k, k + todo.length = d ∧ k ≤ p.supply.length ∧ Taken id k p q)
    (E := fun e q => e = .runtimeError "BlockAllocator: out of blocks" ∧ q.Counted c n ∧ p.supply.length < d ∧
      Taken id p.supply.length p q) ?_
    (List.range d) p ⟨h, 0, by simp, Nat.zero_le _, Taken.refl id p⟩
  · apply wp_mono hloop ?_ fun _ _ he => he
    rintro _ q ⟨hq, k, hk, hle, htaken⟩
    obtain rfl : k = d := by simpa using hk
    exact ⟨hq, hle, htaken⟩
  · rintro _ todo q ⟨hq, k, hk, hle, htaken⟩
    rw [List.length_cons] at hk
    simp only [wp_bind, wp_modify]
    have hlen : p.supply.length = p.alloc.freeList.length + p.evictionOrder.length := by
      rw [supply, List.length_append, List.length_map]
    -- a block of the supply is left as long as the loop has not run through it
    have hnext : ∀ {q'}, q'.Counted c n ∧ Taken id (k + 1) p q' → k < p.supply.length →
        q'.Counted c n ∧ ∃ k, k + todo.length = d ∧ k ≤ p.supply.length ∧ Taken id k p q' :=
      fun hq' hlt => ⟨hq'.1, k + 1, by omega, hlt, hq'.2⟩
    cases hfree : q.alloc.freeList with
    | cons b rest =>
      have hlt : k < p.alloc.freeList.length := by
        have hdrop := htaken.freeList.symm.trans hfree
        by_contra hge
        rw [List.drop_eq_nil_of_le (not_lt.mp hge)] at hdrop
        cases hdrop
      apply wp_of_ok (allocateBlock_of_free hfree)
      exact hnext (htaken.of_free hq hid hfree rfl) (by omega)
    | nil =>
      have hge : p.alloc.freeList.length ≤ k := List.drop_eq_nil_iff.mp (htaken.freeList.symm.trans hfree)
      cases horder : q.evictionOrder with
      | cons v rest =>
        have hlt : k - p.freeBlocks < p.evictionOrder.length := by
          have hdrop := htaken.order.symm.trans horder
          by_contra hge
          rw [List.drop_eq_nil_of_le (not_lt.mp hge)] at hdrop
          cases hdrop
        apply wp_of_ok (hq.allocateBlock_of_evict hfree horder)
        refine hnext (htaken.of_evict hq hid hfree horder rfl) ?_
        rw [freeBlocks, BlockAllocator.numFree] at hlt
        omega
      | nil =>
        have hge' : p.evictionOrder.length ≤ k - p.freeBlocks :=
          List.drop_eq_nil_iff.mp (htaken.order.symm.trans horder)
        rw [freeBlocks, BlockAllocator.numFree] at hge'
        have hall : k = p.supply.length := by omega
        rw [wp, hq.allocateBlock_of_none hfree horder]
        exact ⟨rfl, hq, by omega, hall ▸ htaken⟩

/-- `reserve` takes the missing blocks. -/
theorem Counted.wp_reserve (h : p.Counted c n) {id : Nat} (hid : id < n) (nNew : Nat) :
    wp (Pool.reserve c id nNew)
      (fun _ p' => p'.Counted c n ∧
        c.blocksFor ((p.seqs id).length + nNew) - (p.seqs id).blockTable.length ≤ p.supply.length ∧
        Taken id (c.blocksFor ((p.seqs id).length + nNew) - (p.seqs id).blockTable.length) p p')
      (fun e p' => e = .runtimeError "BlockAllocator: out of blocks" ∧ p'.Counted c n ∧
        p.supply.length < c.blocksFor ((p.seqs id).length + nNew) - (p.seqs id).blockTable.length ∧
        Taken id p.supply.length p p') p := by
  rw [Pool.reserve, wp_bind, wp_get]
  exact h.wp_takeBlocks hid _

/-! ### What the supply is made of -/

namespace Counted

theorem not_mem_table_of_mem_supply (h : p.Counted c n) {b : Nat} (hb : b ∈ p.supply) (i : Nat) :
    b ∉ (p.seqs i).blockTable := by
  intro hmem
  have hi : i < n := by
    by_contra hge
    rw [h.fresh i (not_lt.mp hge)] at hmem
    simp at hmem
  rcases List.mem_append.mp hb with hfree | hcached
  · exact ((h.tracked.mem_freeList b).mp hfree).2 (mem_refs_of_mem_table hi hmem)
  · obtain ⟨e, he, rfl⟩ := List.mem_map.mp hcached
    rw [evictionOrder] at he
    obtain ⟨he, hone⟩ := List.mem_filter.mp (mem_ranking.mp he)
    rw [decide_eq_true_iff, h.tracked.refCount_eq, refs, Multiset.count_add] at hone
    have htable := Multiset.count_pos.mpr (mem_tableRefs hi hmem)
    have hcache := Multiset.count_pos.mpr (mem_cacheRefs he)
    omega

theorem supply_nodup (h : p.Counted c n) : p.supply.Nodup := by
  have hmem : ∀ e ∈ p.evictionOrder, e ∈ p.prefixes ∧ p.alloc.refCount e.2.block = 1 := by
    intro e he
    rw [evictionOrder] at he
    obtain ⟨he, hone⟩ := List.mem_filter.mp (mem_ranking.mp he)
    exact ⟨he, by simpa using hone⟩
  rw [supply, List.nodup_append]
  refine ⟨h.tracked.nodup, ?_, ?_⟩
  · rw [evictionOrder, ((ranking_perm _ p.evictable).map _).nodup_iff]
    apply List.Nodup.map_on _ (h.prefixes_nodup.filter _)
    intro e he e' he' hblock
    obtain ⟨he, hone⟩ := List.mem_filter.mp he
    exact (h.eq_of_refCount_eq_one he (List.mem_filter.mp he').1 (by simpa using hone) hblock.symm).symm
  · rintro b hb b' hb' rfl
    obtain ⟨e, he, rfl⟩ := List.mem_map.mp hb'
    exact ((h.tracked.mem_freeList _).mp hb).2 (mem_refs_of_mem_prefixes (hmem e he).1)

/-- The order in which the cache lists its entries does not matter to the invariant. -/
theorem perm (h : p.Counted c n) {es : List (Hash × PrefixEntry)} (hperm : es.Perm p.prefixes) :
    ({ p with prefixes := es } : Pool K).Counted c n where
  tracked := by
    have hrefs : ({ p with prefixes := es } : Pool K).refs n = p.refs n := by
      have hcache : ({ p with prefixes := es } : Pool K).cacheRefs = p.cacheRefs :=
        Multiset.coe_eq_coe.mpr (hperm.map _)
      rw [refs, hcache]
      rfl
    rw [Tracked, hrefs]
    exact h.tracked
  fresh := h.fresh
  keyed e he := h.keyed e (hperm.subset he)
  links := (hperm.map _).nodup_iff.mpr h.links
  ticked := ⟨(hperm.map _).nodup_iff.mpr h.ticked.nodup, fun e he => h.ticked.le e (hperm.subset he)⟩

theorem evictionOrder_perm (h : p.Counted c n) {es : List (Hash × PrefixEntry)} (hperm : es.Perm p.prefixes) :
    ({ p with prefixes := es } : Pool K).evictionOrder = p.evictionOrder :=
  ranking_congr ((h.perm hperm).evictable_ticks) (hperm.filter _)

end Counted

/-- The pool after the first `k` blocks of the supply were taken depends on the order of the entries in the
cache only in that order. -/
theorem Taken.perm {id k : Nat} {es : List (Hash × PrefixEntry)} {q q' : Pool K} (h : p.Counted c n)
    (hperm : es.Perm p.prefixes) (hq : Taken id k p q) (hq' : Taken id k { p with prefixes := es } q') :
    ∃ es', es'.Perm q.prefixes ∧ q' = { q with prefixes := es' } := by
  have horder := h.evictionOrder_perm hperm
  have hsupply : ({ p with prefixes := es } : Pool K).supply = p.supply := by
    rw [supply, horder]
    rfl
  refine ⟨q'.prefixes, ?_, ?_⟩
  · rw [hq.prefixes, hq'.prefixes, horder]
    exact hperm.filter _
  · obtain ⟨⟨freeList, refCount⟩, keys, values, prefixes, prefixHits, tick, seqs⟩ := q'
    obtain ⟨⟨freeList', refCount'⟩, keys', values', prefixes', prefixHits', tick', seqs'⟩ := q
    have hseqs : seqs = seqs' := by
      funext i
      by_cases hi : i = id
      · subst hi
        have hself := hq'.self
        rw [hsupply] at hself
        exact hself.trans hq.self.symm
      · exact (hq'.others i hi).trans (hq.others i hi).symm
    obtain rfl := hseqs
    obtain rfl : freeList = freeList' := hq'.freeList.trans hq.freeList.symm
    obtain rfl : refCount = refCount' := hq'.refCount.trans hq.refCount.symm
    obtain rfl : keys = keys' := hq'.keys.trans hq.keys.symm
    obtain rfl : values = values' := hq'.values.trans hq.values.symm
    obtain rfl : prefixHits = prefixHits' := hq'.prefixHits.trans hq.prefixHits.symm
    obtain rfl : tick = tick' := hq'.tick.trans hq.tick.symm
    rfl

end Pool

/-! ### Runs -/

/-- An operation on sequences `0..n - 1`. -/
def PoolOp.On {K : Type} (n : Nat) (op : PoolOp K) : Prop := ∀ id, op.target = some id → id < n

theorem PoolOp.On.of_target {K : Type} {n : Nat} {op : PoolOp K} {i : Nat} (htarget : op.target = some i)
    (hi : i < n) : op.On n := by
  intro id hid
  rw [htarget, Option.some.injEq] at hid
  exact hid ▸ hi

namespace Pool

variable {K : Type} {c : PoolSizes} {n : Nat} {p : Pool K}

def machine [Zero K] (c : PoolSizes) : Machine (Pool K) (PoolOp K) where
  start := create c
  next p op := finalState (op.run c) p

theorem not_fresh {id : Nat} (h : p.seqs id ≠ {}) : (p.seqs id).blockTable ≠ [] ∨ (p.seqs id).length ≠ 0 := by
  by_contra hnot
  push Not at hnot
  apply h
  cases hs : p.seqs id
  simp_all

theorem Counted.next (h : p.Counted c n) {op : PoolOp K} (hop : op.On n) :
    (finalState (op.run c) p).Counted c n := by
  cases op with
  | reserve id nNew =>
    apply wp_finalState (wp_mono (h.wp_reserve (hop id rfl) nNew) _ _)
    · exact fun _ _ hq => hq.1
    · exact fun _ _ hq => hq.2.1
  | write id layer start k v len => exact h.write id layer start k v len
  | commit id len => exact h.commit (hop id rfl) len
  | free id => exact wp_finalState (wp_mono (h.wp_free (hop id rfl)) (fun _ _ hq => hq.1) fun _ _ hf => hf.elim)
  | acquire id tokens =>
    apply wp_finalState
    simp only [PoolOp.run, wp_bind, wp_pure]
    by_cases hfresh : p.seqs id = {}
    · apply wp_mono (h.wp_acquireSharedPrefix (hop id rfl) tokens hfresh) _ fun _ _ hf => hf.elim
      exact fun _ _ hq => hq.1
    · exact wp_of_ok (acquireSharedPrefix_of_not_fresh tokens (not_fresh hfresh)) h
  | register id tokens =>
    exact wp_finalState (wp_mono (h.wp_registerPrefix (hop id rfl) tokens) (fun _ _ hq => hq.1)
      fun _ _ hf => hf.elim)
  | clear => exact wp_finalState (wp_mono h.wp_clearPrefixCache (fun _ _ hq => hq.1) fun _ _ hf => hf.elim)

theorem counted_reachable [Zero K] (hp : (machine c).Reachable (fun _ op => op.On n) p) : p.Counted c n :=
  hp.invariant (counted_create n) fun _ _ _ h hop => h.next hop

/-! ### Exact reservation -/

/-- The blocks sequence `id` lacks for `nNew` more rows. -/
def shortage (c : PoolSizes) (p : Pool K) (id nNew : Nat) : Int :=
  c.blocksFor ((p.seqs id).length + nNew) - (p.seqs id).blockTable.length

/-- `reserve` led from `p` to `p'`: the blocks `new` were added to the table of sequence `id`, and the entries
`evicted` dropped for them. -/
structure ReservedLru (c : PoolSizes) (id nNew : Nat) (new : List Nat) (evicted : List (Hash × PrefixEntry))
    (p p' : Pool K) : Prop where
  self : p'.seqs id = ⟨(p.seqs id).blockTable ++ new, (p.seqs id).length⟩
  length : (new.length : Int) = max 0 (shortage c p id nNew)
  nodup : new.Nodup
  unreferenced : ∀ b ∈ new, ∀ i, b ∉ (p.seqs i).blockTable
  evictions : (evicted.length : Int) = max 0 (shortage c p id nNew - p.freeBlocks)
  evicted_nodup : evicted.Nodup
  evicted_subset : evicted ⊆ p.evictable
  least : ∀ v ∈ evicted, ∀ e ∈ p.evictable, e ∉ evicted → v.2.lastUsed < e.2.lastUsed
  prefixes : p'.prefixes = p.prefixes.filter fun e => e ∉ evicted
  others : ∀ i, i ≠ id → p'.seqs i = p.seqs i
  gathered : ∀ i layer rows, rows ≤ (p.seqs i).blockTable.length * c.blockSize →
    p'.gatherKeys c i layer rows = p.gatherKeys c i layer rows ∧
      p'.gatherValues c i layer rows = p.gatherValues c i layer rows

theorem Taken.reservedLru (h : p.Counted c n) {id nNew : Nat} {p' : Pool K}
    (hle : c.blocksFor ((p.seqs id).length + nNew) - (p.seqs id).blockTable.length ≤ p.supply.length)
    (ht : Taken id (c.blocksFor ((p.seqs id).length + nNew) - (p.seqs id).blockTable.length) p p') :
    ∃ new evicted, ReservedLru c id nNew new evicted p p' := by
  generalize hd : c.blocksFor ((p.seqs id).length + nNew) - (p.seqs id).blockTable.length = d at hle ht
  have hmax : ((d : Nat) : Int) = max 0 (shortage c p id nNew) := by
    rw [shortage]
    omega
  have hsupply := length_supply p
  have horder : p.evictionOrder.length = p.evictable.length := length_ranking _ _
  refine ⟨p.supply.take d, p.evictionOrder.take (d - p.freeBlocks), ht.self, ?_, h.supply_nodup.sublist
    (List.take_sublist _ _), fun b hb i => h.not_mem_table_of_mem_supply (List.mem_of_mem_take hb) i, ?_, ?_,
    fun v hv => ?_, fun v hv e he hnot => ?_, ht.prefixes, ht.others, fun i layer rows hrows => ?_⟩
  · rw [List.length_take, Nat.min_eq_left hle, hmax]
  · rw [List.length_take]
    omega
  · apply List.Nodup.sublist (List.take_sublist _ _)
    rw [evictionOrder, (ranking_perm _ _).nodup_iff]
    exact h.prefixes_nodup.filter _
  · have hv := List.mem_of_mem_take hv
    rw [evictionOrder] at hv
    exact mem_ranking.mp hv
  · exact lt_of_mem_take h.evictable_ticks hv he hnot
  · obtain ⟨more, hmore⟩ : ∃ more, (p'.seqs i).blockTable = (p.seqs i).blockTable ++ more := by
      by_cases hi : i = id
      · subst hi
        exact ⟨_, by rw [ht.self]⟩
      · exact ⟨[], by rw [ht.others i hi, List.append_nil]⟩
    have haddr : ∀ r < rows, c.rowAddr (p'.seqs i).blockTable r = c.rowAddr (p.seqs i).blockTable r := by
      intro r hr
      rw [hmore]
      exact c.rowAddr_append (hr.trans_le hrows) more
    constructor
    · rw [gatherKeys, gatherKeys, ht.keys]
      exact List.map_congr_left fun r hr => by rw [haddr r (List.mem_range.mp hr)]
    · rw [gatherValues, gatherValues, ht.values]
      exact List.map_congr_left fun r hr => by rw [haddr r (List.mem_range.mp hr)]

/-- **Exact reservation.** `reserve` throws exactly when free and evictable blocks are too few; else it takes the
missing ones, evicting no more than it must and the least recently used ones. In whichever order the cache lists
its entries, the outcome is the same. -/
theorem reserve_exact [Zero K] {c : PoolConfig} (hp : (machine c).Reachable (fun _ op => op.On n) p) {id : Nat}
    (hid : id < n) (nNew : Nat) :
    (returns (reserve c id nNew) p = false ↔
      (p.freeBlocks + p.evictable.length : Int) < shortage c p id nNew) ∧
    (returns (reserve c id nNew) p = true →
      ∃ new evicted, ReservedLru c id nNew new evicted p (finalState (reserve c id nNew) p)) ∧
    ∀ es : List (Hash × PrefixEntry), es.Perm p.prefixes →
      outcome (reserve c id nNew) { p with prefixes := es } = outcome (reserve c id nNew) p ∧
        ∃ es', es'.Perm (finalState (reserve c id nNew) p).prefixes ∧
          finalState (reserve c id nNew) { p with prefixes := es } =
            { finalState (reserve c id nNew) p with prefixes := es' } := by
  have h := counted_reachable hp
  have hlen := length_supply p
  have hrun := h.wp_reserve hid nNew
  refine ⟨?_, ?_, fun es hperm => ?_⟩
  · cases hp' : reserve c id nNew p with
    | ok a p' =>
      obtain ⟨-, hle, -⟩ := wp_ok hrun hp'
      simp only [returns, hp', Bool.true_eq_false, false_iff, shortage]
      omega
    | error e p' =>
      obtain ⟨-, -, hlt, -⟩ := wp_error hrun hp'
      simp only [returns, hp', true_iff, shortage]
      omega
  · intro hok
    cases hp' : reserve c id nNew p with
    | ok a p' =>
      obtain ⟨-, hle, ht⟩ := wp_ok hrun hp'
      simp only [finalState, hp']
      exact ht.reservedLru h hle
    | error e p' => simp [returns, hp'] at hok
  · have hrun' := (h.perm hperm).wp_reserve hid nNew
    have hsupply : ({ p with prefixes := es } : Pool K).supply = p.supply := by
      rw [supply, h.evictionOrder_perm hperm]
      rfl
    rw [hsupply] at hrun'
    simp only [outcome, finalState]
    cases hp' : reserve c id nNew p with
    | ok a p' =>
      obtain ⟨-, hle, ht⟩ := wp_ok hrun hp'
      cases hq' : reserve c id nNew { p with prefixes := es } with
      | ok a' q' => exact ⟨rfl, ht.perm h hperm (wp_ok hrun' hq').2.2⟩
      | error e q' => exact absurd (wp_error hrun' hq').2.2.1 (not_lt.mpr hle)
    | error e p' =>
      obtain ⟨rfl, -, hlt, ht⟩ := wp_error hrun hp'
      cases hq' : reserve c id nNew { p with prefixes := es } with
      | ok a q' => exact absurd (wp_ok hrun' hq').2.1 (not_le.mpr hlt)
      | error e' q' =>
        obtain ⟨rfl, -, -, ht'⟩ := wp_error hrun' hq'
        exact ⟨rfl, ht.perm h hperm ht'⟩

def oneBlock : PoolConfig := ⟨⟨1, 1, 1, 1, Nat.one_pos, Nat.one_pos, Nat.one_pos⟩, by decide⟩

theorem reserve_exact_oneBlock :
    let m : Machine (Pool Nat) (PoolOp Nat) := machine oneBlock
    let p := m.next (m.next (m.next m.start (.reserve 0 1)) (.register 0 [5])) (.free 0)
    p.freeBlocks = 0 ∧ p.evictable.length = 1 ∧ (returns (reserve oneBlock 1 1) p = false ↔
      (p.freeBlocks + p.evictable.length : Int) < shortage oneBlock p 1 1) := by
  refine ⟨by decide +kernel, by decide +kernel, ?_⟩
  exact (reserve_exact (n := 2) (.next (.next (.next .start (.of_target (i := 0) rfl (by decide)))
    (.of_target (i := 0) rfl (by decide))) (.of_target (i := 0) rfl (by decide))) (by decide) 1).1

end Pool

end InferenceEngine
