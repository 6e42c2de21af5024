import InferenceEngine.KvCache.References

/-!
# The invariant of the pool

`Wf` says which blocks may be shared: a block that still has room for rows of a sequence, past its
committed length, is referenced once, by that sequence. Each operation of the manager has one lemma that
says everything it does to the pool: what changes, what stays, and that `Wf` is kept, also when it throws.
-/

namespace InferenceEngine

open Exec

def chainHash (chain : List (List Int)) : Hash := chain.foldl hashBlock 0

@[simp] theorem chainHash_nil : chainHash [] = 0 := rfl

@[simp] theorem chainHash_snoc (chain : List (List Int)) (span : List Int) :
    chainHash (chain ++ [span]) = hashBlock (chainHash chain) span := by
  simp [chainHash]

namespace PoolSizes

variable (c : PoolSizes)

theorem blocksFor_mul_le (rows : Nat) : rows ≤ c.blocksFor rows * c.blockSize := by
  have hpos := c.blockSize_pos
  have hdiv := Nat.lt_div_mul_add hpos (a := rows + c.blockSize - 1)
  unfold blocksFor
  omega

theorem blocksFor_le_iff {rows k : Nat} : c.blocksFor rows ≤ k ↔ rows ≤ k * c.blockSize := by
  have hpos := c.blockSize_pos
  rw [blocksFor, ← Nat.lt_succ_iff, Nat.div_lt_iff_lt_mul hpos, Nat.succ_mul]
  omega

theorem blocksFor_mul (k : Nat) : c.blocksFor (k * c.blockSize) = k := by
  apply le_antisymm
  · exact c.blocksFor_le_iff.mpr le_rfl
  · exact Nat.le_of_mul_le_mul_right (c.blocksFor_mul_le _) c.blockSize_pos

theorem blocksFor_mono {a b : Nat} (h : a ≤ b) : c.blocksFor a ≤ c.blocksFor b :=
  c.blocksFor_le_iff.mpr (h.trans (c.blocksFor_mul_le b))

@[simp] theorem blocksFor_zero : c.blocksFor 0 = 0 := by
  simpa using c.blocksFor_mul 0

@[simp] theorem length_spans (tokens : List Int) :
    (c.spans tokens).length = tokens.length / c.blockSize := by
  simp [spans]

theorem spans_getElem? {tokens : List Int} {j : Nat} (hj : j < tokens.length / c.blockSize) :
    (c.spans tokens)[j]? = some (sliceRows tokens (j * c.blockSize) c.blockSize) := by
  simp [spans, hj]

theorem length_of_mem_spans {tokens span : List Int} (h : span ∈ c.spans tokens) :
    span.length = c.blockSize := by
  simp only [spans, List.mem_map, List.mem_range] at h
  obtain ⟨j, hj, rfl⟩ := h
  have hle : (j + 1) * c.blockSize ≤ tokens.length :=
    (Nat.mul_le_mul_right _ hj).trans (Nat.div_mul_le_self _ _)
  rw [Nat.succ_mul] at hle
  simp only [sliceRows, List.length_take, List.length_drop]
  omega

/-- The full blocks of a shorter token list are the first of the longer one's. -/
theorem spans_take (tokens : List Int) (k : Nat) (hk : k * c.blockSize ≤ tokens.length) :
    c.spans (tokens.take (k * c.blockSize)) = (c.spans tokens).take k := by
  have hpos := c.blockSize_pos
  have hkle : k ≤ tokens.length / c.blockSize := (Nat.le_div_iff_mul_le hpos).mpr hk
  apply List.ext_getElem?
  intro j
  by_cases hj : j < k
  · have hle : j * c.blockSize + c.blockSize ≤ k * c.blockSize := by
      rw [← Nat.succ_mul]
      exact Nat.mul_le_mul_right _ hj
    rw [spans_getElem? _ (by
        rw [List.length_take, Nat.min_eq_left hk, Nat.mul_div_cancel _ hpos]
        exact hj),
      List.getElem?_take_of_lt hj, spans_getElem? _ (by omega)]
    simp only [sliceRows, List.drop_take, List.take_take]
    rw [Nat.min_eq_left (by omega)]
  · rw [List.getElem?_eq_none (by
        rw [length_spans, List.length_take, Nat.min_eq_left hk, Nat.mul_div_cancel _ hpos]
        omega),
      List.getElem?_eq_none (by rw [List.length_take, length_spans]; omega)]

theorem flatten_spans_take (tokens : List Int) (k : Nat) (hk : k * c.blockSize ≤ tokens.length) :
    ((c.spans tokens).take k).flatten = tokens.take (k * c.blockSize) := by
  induction k with
  | zero => simp
  | succ k ih =>
    have hle : k * c.blockSize + c.blockSize ≤ tokens.length := by rwa [← Nat.succ_mul]
    have hk' : k < tokens.length / c.blockSize :=
      (Nat.le_div_iff_mul_le c.blockSize_pos).mpr hk
    rw [List.take_add_one, spans_getElem? _ hk', List.flatten_append, ih (by omega)]
    simp only [Option.toList_some, List.flatten_cons, List.flatten_nil, List.append_nil, sliceRows]
    rw [Nat.succ_mul, List.take_add]

end PoolSizes

namespace Pool

variable {K : Type} {c : PoolSizes} {n : Nat} {p : Pool K}

/-- The invariant of a pool with sequences `0..n - 1`. -/
structure Wf (c : PoolSizes) (n : Nat) (p : Pool K) : Prop where
  tracked : p.Tracked c n
  fresh : ∀ i, n ≤ i → p.seqs i = {}
  length_le : ∀ i, (p.seqs i).length ≤ (p.seqs i).blockTable.length * c.blockSize
  unshared : ∀ i < n, ∀ j b, (p.seqs i).blockTable[j]? = some b →
    (p.seqs i).length < (j + 1) * c.blockSize → (p.refs n).count b = 1
  entries : ∀ e ∈ p.prefixes,
    e.1 = hashBlock e.2.parent e.2.tokens ∧ e.2.tokens.length = c.blockSize

theorem wf_create [Zero K] (n : Nat) : (create c : Pool K).Wf c n where
  tracked := by
    have hrefs : (create c : Pool K).refs n = 0 := by simp [refs, tableRefs, cacheRefs, create]
    rw [Tracked, hrefs]
    exact BlockAllocator.tracks_create c.numBlocks
  fresh _ _ := rfl
  length_le _ := Nat.zero_le _
  unshared _ _ j b h := by simp [create] at h
  entries e he := by simp [create] at he

theorem Wf.eq_empty (h : p.Wf c n) {i : Nat} (hi : (p.seqs i).blockTable = []) : p.seqs i = {} := by
  have hlen := h.length_le i
  rw [hi, List.length_nil, Nat.zero_mul, Nat.le_zero] at hlen
  cases hs : p.seqs i
  rw [hs] at hi hlen
  simp only at hi hlen
  rw [hi, hlen]

theorem Wf.succ (h : p.Wf c n) : p.Wf c (n + 1) := by
  have hrefs : p.refs (n + 1) = p.refs n := by
    rw [refs, tableRefs, Finset.sum_range_succ, h.fresh n le_rfl]
    simp [refs, tableRefs]
  refine ⟨?_, fun i hi => h.fresh i (by omega), h.length_le, fun i hi j b hj hlt => ?_, h.entries⟩
  · rw [Tracked, hrefs]
    exact h.tracked
  · rw [hrefs]
    by_cases hin : i < n
    · exact h.unshared i hin j b hj hlt
    · rw [h.fresh i (by omega)] at hj
      simp at hj

theorem Wf.mono {m : Nat} (h : p.Wf c n) (hle : n ≤ m) : p.Wf c m := by
  induction hle with
  | refl => exact h
  | step _ ih => exact ih.succ

theorem wp_onAlloc {f : BlockAllocator → Except Error BlockAllocator} {Q : Unit → Pool K → Prop}
    {E : Error → Pool K → Prop} {a : BlockAllocator} (h : f p.alloc = .ok a)
    (hQ : Q () { p with alloc := a }) : wp (onAlloc f) Q E p := by
  simp only [onAlloc, wp_bind, wp_get, h, wp_lift_ok, wp_modify]
  exact hQ

/-! ### Reserving blocks -/

theorem lruVictim_some {a : BlockAllocator} {entries : List (Hash × PrefixEntry)}
    {v : Hash × PrefixEntry} (h : lruVictim a entries = some v) :
    v ∈ entries ∧ a.refCount v.2.block = 1 := by
  have hbest : ∀ w ∈ lruVictim a entries, w ∈ entries ∧ a.refCount w.2.block = 1 := by
    rw [lruVictim]
    apply List.foldlRecOn (motive := fun best => ∀ w ∈ best, w ∈ entries ∧ a.refCount w.2.block = 1)
    · intro w hw
      cases hw
    · intro best hbest e he v hv
      cases best with
      | none =>
        by_cases hone : a.refCount e.2.block = 1
        · simp only [hone, if_true, Option.mem_def, Option.some.injEq] at hv
          exact hv ▸ ⟨he, hone⟩
        · simp [hone] at hv
      | some w =>
        by_cases hone : a.refCount e.2.block = 1 ∧ e.2.lastUsed < w.2.lastUsed
        · simp only [hone, and_self, if_true, Option.mem_def, Option.some.injEq] at hv
          exact hv ▸ ⟨he, hone.1⟩
        · simp only [hone, if_false, Option.mem_def, Option.some.injEq] at hv
          exact hv ▸ hbest w rfl
  exact hbest v h

/-- Fewer references over the same tables keep unshared blocks unshared. -/
theorem Wf.count_eq_one_of_le {p' : Pool K} (h : p.Wf c n) (hle : p'.refs n ≤ p.refs n) {i j b : Nat}
    (hi : i < n) (hseq : p'.seqs i = p.seqs i) (hj : (p.seqs i).blockTable[j]? = some b)
    (hlt : (p.seqs i).length < (j + 1) * c.blockSize) : (p'.refs n).count b = 1 := by
  have hold := h.unshared i hi j b hj hlt
  have hmem : b ∈ p'.refs n := by
    apply mem_refs_of_mem_table hi
    rw [hseq]
    exact List.mem_of_getElem? hj
  have hcount := Multiset.count_le_of_le b hle
  have hpos := Multiset.count_pos.mpr hmem
  omega

/-- Blocks given up by the cache: the tables stay. -/
structure Evicted (p p' : Pool K) : Prop where
  keys : p'.keys = p.keys
  values : p'.values = p.values
  seqs : p'.seqs = p.seqs
  tick : p'.tick = p.tick
  prefixHits : p'.prefixHits = p.prefixHits
  prefixes : p'.prefixes.Sublist p.prefixes

theorem Evicted.refl (p : Pool K) : Evicted p p := ⟨rfl, rfl, rfl, rfl, rfl, List.Sublist.refl _⟩

theorem Evicted.trans {p q r : Pool K} (h : Evicted p q) (h' : Evicted q r) : Evicted p r :=
  ⟨h'.keys.trans h.keys, h'.values.trans h.values, h'.seqs.trans h.seqs, h'.tick.trans h.tick,
    h'.prefixHits.trans h.prefixHits, h'.prefixes.trans h.prefixes⟩

theorem wp_evictLru (h : p.Wf c n) :
    wp evictLru (fun _ p' => p'.Wf c n ∧ Evicted p p') (fun _ _ => False) p := by
  simp only [evictLru, wp_bind, wp_get]
  cases hv : lruVictim p.alloc p.prefixes with
  | none => exact ⟨h, Evicted.refl p⟩
  | some v =>
    obtain ⟨hmem, -⟩ := lruVictim_some hv
    have hcache : p.cacheRefs = v.2.block ::ₘ ((p.prefixes.erase v).map fun e => e.2.block : List Nat) := by
      rw [cacheRefs, Multiset.cons_coe, Multiset.coe_eq_coe]
      exact (List.perm_cons_erase hmem).map _
    have hrefs : p.refs n = v.2.block ::ₘ ({ p with prefixes := p.prefixes.erase v } : Pool K).refs n := by
      rw [refs, hcache, Multiset.add_cons]
      rfl
    have htracked := h.tracked
    rw [Tracked, hrefs] at htracked
    obtain ⟨a, hfree, ha, -⟩ := htracked.free_eq
    simp only [wp_bind]
    refine wp_onAlloc hfree ?_
    simp only [wp_modify]
    have hle : ({ p with prefixes := p.prefixes.erase v } : Pool K).refs n ≤ p.refs n := by
      rw [hrefs]
      exact Multiset.le_cons_self _ _
    refine ⟨⟨ha, h.fresh, h.length_le, fun i hi j b hj hlt => ?_, fun e he => ?_⟩,
      ⟨rfl, rfl, rfl, rfl, rfl, List.erase_sublist⟩⟩
    · exact h.count_eq_one_of_le hle hi rfl hj hlt
    · exact h.entries e (List.mem_of_mem_erase he)

/-- Taking a block: it had no reference once the cache has given up what it had to. -/
theorem wp_allocateBlock (h : p.Wf c n) :
    wp allocateBlock
      (fun b p' => ∃ q, q.Wf c n ∧ Evicted p q ∧ b ∉ q.refs n ∧
        p'.alloc.Tracks c.numBlocks (b ::ₘ q.refs n) ∧ p' = { q with alloc := p'.alloc } ∧
        (0 < p.freeBlocks → q = p ∧ p'.freeBlocks + 1 = p.freeBlocks))
      (fun _ p' => p'.Wf c n ∧ Evicted p p' ∧ p.freeBlocks = 0) p := by
  have htake : ∀ q : Pool K, q.Wf c n → Evicted p q → (0 < p.freeBlocks → q = p) →
      (q.freeBlocks = 0 → p.freeBlocks = 0) →
      wp (lift q.alloc.allocate)
        (fun taken q' => q' = q ∧ taken.1 ∉ q.refs n ∧ taken.2.Tracks c.numBlocks (taken.1 ::ₘ q.refs n) ∧
          (0 < p.freeBlocks → q = p ∧ taken.2.numFree + 1 = p.freeBlocks))
        (fun _ p' => p'.Wf c n ∧ Evicted p p' ∧ p.freeBlocks = 0) q := by
    intro q hq he hsame hzero
    by_cases hfree : q.alloc.numFree = 0
    · rw [BlockAllocator.allocate_error hfree, wp_lift_error]
      exact ⟨hq, he, hzero hfree⟩
    · obtain ⟨b, a, hb, hnot, ha, hlist⟩ := hq.tracked.allocate_eq hfree
      rw [hb, wp_lift_ok]
      refine ⟨rfl, hnot, ha, fun hpos => ⟨hsame hpos, ?_⟩⟩
      rw [← hsame hpos]
      simp only [freeBlocks, BlockAllocator.numFree, hlist, List.length_cons]
  simp only [allocateBlock, wp_bind, wp_get]
  by_cases hzero : p.alloc.numFree = 0
  · rw [if_pos hzero, wp_bind]
    refine wp_mono (wp_evictLru h) ?_ fun _ _ hf => hf.elim
    intro _ q hout
    obtain ⟨hq, he⟩ := hout
    simp only [wp_bind, wp_get]
    apply wp_mono (htake q hq he (fun hpos => absurd hzero (Nat.ne_of_gt hpos)) fun _ => hzero) ?_ fun _ _ hf => hf
    intro taken q' htaken
    obtain ⟨rfl, hnot, ha, hpos⟩ := htaken
    exact ⟨q', hq, he, hnot, ha, rfl, hpos⟩
  · rw [if_neg hzero]
    simp only [wp_bind, wp_get]
    apply wp_mono (htake p h (Evicted.refl p) (fun _ => rfl) fun hq => hq) ?_ fun _ _ hf => hf
    intro taken q' htaken
    obtain ⟨rfl, hnot, ha, hpos⟩ := htaken
    exact ⟨q', h, Evicted.refl q', hnot, ha, rfl, hpos⟩

/-- A sequence has grown by the blocks `new`; cached blocks may have been given up for them. -/
structure Grown (id : Nat) (new : List Nat) (p p' : Pool K) : Prop where
  keys : p'.keys = p.keys
  values : p'.values = p.values
  self : p'.seqs id = ⟨(p.seqs id).blockTable ++ new, (p.seqs id).length⟩
  others : ∀ i, i ≠ id → p'.seqs i = p.seqs i
  tick : p'.tick = p.tick
  prefixHits : p'.prefixHits = p.prefixHits
  prefixes : p'.prefixes.Sublist p.prefixes

theorem Grown.refl (id : Nat) (p : Pool K) : Grown id [] p p :=
  ⟨rfl, rfl, by simp, fun _ _ => rfl, rfl, rfl, List.Sublist.refl _⟩

theorem Grown.trans {id : Nat} {new new' : List Nat} {p q r : Pool K} (h : Grown id new p q)
    (h' : Grown id new' q r) : Grown id (new ++ new') p r where
  keys := h'.keys.trans h.keys
  values := h'.values.trans h.values
  self := by rw [h'.self, h.self, List.append_assoc]
  others i hi := (h'.others i hi).trans (h.others i hi)
  tick := h'.tick.trans h.tick
  prefixHits := h'.prefixHits.trans h.prefixHits
  prefixes := h'.prefixes.trans h.prefixes

theorem wp_growOne {id : Nat} (hid : id < n) (h : p.Wf c n) :
    wp (do
        let block ← allocateBlock
        modify fun p => p.pushBlock id block)
      (fun _ p' => p'.Wf c n ∧ (∃ b, Grown id [b] p p') ∧
        (0 < p.freeBlocks → p'.prefixes = p.prefixes ∧ p'.freeBlocks + 1 = p.freeBlocks))
      (fun _ p' => p'.Wf c n ∧ Grown id [] p p' ∧ p.freeBlocks = 0) p := by
  simp only [wp_bind, wp_modify]
  refine wp_mono (wp_allocateBlock h) ?_ ?_
  · rintro b p' ⟨q, hq, he, hnot, ha, hp', hfree⟩
    have hseqs : p'.seqs = p.seqs := by rw [hp', ← he.seqs]
    have hqrefs : p'.refs n = q.refs n := by rw [hp']; rfl
    have hprefixes : p'.prefixes = q.prefixes := by rw [hp']
    have hrefs : (p'.pushBlock id b).refs n = b ::ₘ q.refs n := by rw [refs_pushBlock hid, hqrefs]
    refine ⟨⟨?_, fun i hi => ?_, fun i => ?_, fun i hi j x hj hlt => ?_, fun e hmem => ?_⟩,
      ⟨b, ?_⟩, fun hpos => ?_⟩
    · rw [Tracked, hrefs]
      exact ha
    · rw [pushBlock, setSeq_seqs_of_ne _ _ (by omega), hseqs]
      exact h.fresh i hi
    · by_cases hi : i = id
      · subst hi
        simp only [pushBlock, setSeq_seqs_self, hseqs, List.length_append, List.length_singleton]
        exact (h.length_le i).trans (Nat.mul_le_mul_right _ (Nat.le_succ _))
      · rw [pushBlock, setSeq_seqs_of_ne _ _ hi, hseqs]
        exact h.length_le i
    · rw [hrefs]
      have hother : ∀ k, (q.seqs i).blockTable[k]? = some x →
          (q.seqs i).length < (k + 1) * c.blockSize → (b ::ₘ q.refs n).count x = 1 := by
        intro k hk hlt'
        have hx : x ≠ b := by
          rintro rfl
          exact hnot (mem_refs_of_mem_table hi (List.mem_of_getElem? hk))
        rw [Multiset.count_cons_of_ne hx]
        exact hq.unshared i hi k x hk hlt'
      by_cases hi' : i = id
      · subst hi'
        simp only [pushBlock, setSeq_seqs_self, hseqs] at hj hlt
        rw [List.getElem?_append] at hj
        by_cases hjl : j < (p.seqs i).blockTable.length
        · rw [if_pos hjl, ← he.seqs] at hj
          exact hother j hj (by rwa [he.seqs])
        · rw [if_neg hjl] at hj
          have hx := List.mem_of_getElem? hj
          rw [List.mem_singleton] at hx
          rw [hx, Multiset.count_cons_self, Multiset.count_eq_zero_of_notMem hnot]
      · simp only [pushBlock, setSeq_seqs_of_ne _ _ hi', hseqs, ← he.seqs] at hj hlt
        exact hother j hj hlt
    · rw [pushBlock, setSeq_prefixes, hprefixes] at hmem
      exact hq.entries e hmem
    · exact
        { keys := by rw [← he.keys, pushBlock, setSeq_keys, hp']
          values := by rw [← he.values, pushBlock, setSeq_values, hp']
          self := by simp [pushBlock, hseqs]
          others := fun i hi => by rw [pushBlock, setSeq_seqs_of_ne _ _ hi, hseqs]
          tick := by rw [← he.tick, hp']; rfl
          prefixHits := by rw [← he.prefixHits, hp']; rfl
          prefixes := by rw [pushBlock, setSeq_prefixes, hprefixes]; exact he.prefixes }
    · obtain ⟨rfl, hcount⟩ := hfree hpos
      exact ⟨by rw [pushBlock, setSeq_prefixes, hprefixes], hcount⟩
  · rintro _ p' ⟨hp', he, hfree⟩
    exact ⟨hp', ⟨he.keys, he.values, by simp [he.seqs], fun i _ => by rw [he.seqs], he.tick,
      he.prefixHits, he.prefixes⟩, hfree⟩

/-- `reserve` adds the missing blocks, or throws with some of them added. It succeeds without touching
the cache when enough blocks are free. -/
theorem wp_reserve {id : Nat} (nNew : Nat) (hid : id < n) (h : p.Wf c n) :
    wp (reserve c id nNew)
      (fun _ p' => p'.Wf c n ∧ ∃ new, Grown id new p p' ∧
        new.length = c.blocksFor ((p.seqs id).length + nNew) - (p.seqs id).blockTable.length ∧
        (new.length ≤ p.freeBlocks →
          p'.prefixes = p.prefixes ∧ p'.freeBlocks + new.length = p.freeBlocks))
      (fun _ p' => p'.Wf c n ∧ (∃ new, Grown id new p p') ∧
        p.freeBlocks < c.blocksFor ((p.seqs id).length + nNew) - (p.seqs id).blockTable.length) p := by
  simp only [reserve, wp_bind, wp_get]
  generalize hd : c.blocksFor ((p.seqs id).length + nNew) - (p.seqs id).blockTable.length = d
  -- the turns made so far are the blocks added so far
  have hloop := wp_forM (f := fun _ : Nat => (do
      let block ← allocateBlock
      modify fun p => p.pushBlock id block : EStateM Error (Pool K) Unit))
    (I := fun (todo : List Nat) q => q.Wf c n ∧ ∃ new, Grown id new p q ∧
      new.length + todo.length = d ∧
      (new.length ≤ p.freeBlocks → q.prefixes = p.prefixes ∧ q.freeBlocks + new.length = p.freeBlocks))
    (E := fun _ q => q.Wf c n ∧ (∃ new, Grown id new p q) ∧ p.freeBlocks < d) ?_
    (List.range d) p ⟨h, [], Grown.refl id p, by simp, fun _ => ⟨rfl, rfl⟩⟩
  · refine wp_mono hloop ?_ fun _ _ he => he
    rintro _ q ⟨hq, new, hg, hlen, hfree⟩
    exact ⟨hq, new, hg, by simpa using hlen, hfree⟩
  · rintro _ todo q ⟨hq, new, hg, hlen, hfree⟩
    simp only [List.length_cons] at hlen
    refine wp_mono (wp_growOne hid hq) ?_ ?_
    · rintro _ q' ⟨hq', ⟨b, hb⟩, hfree'⟩
      refine ⟨hq', new ++ [b], hg.trans hb, by simp; omega, fun hle => ?_⟩
      simp only [List.length_append, List.length_singleton] at hle ⊢
      obtain ⟨hsame, hcount⟩ := hfree (by omega)
      obtain ⟨hsame', hcount'⟩ := hfree' (by omega)
      exact ⟨hsame'.trans hsame, by omega⟩
    · rintro _ q' ⟨hq', hg', hzero⟩
      refine ⟨hq', ⟨new ++ [], hg.trans hg'⟩, ?_⟩
      by_contra hge
      obtain ⟨-, hcount⟩ := hfree (by omega)
      omega

end Pool

end InferenceEngine
