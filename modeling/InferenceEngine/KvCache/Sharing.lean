import InferenceEngine.KvCache.Invariant

/-!
# Sharing and returning blocks

What `free`, `acquire_shared_prefix`, `register_prefix` and `clear_prefix_cache` do to a well-formed
pool. The blocks `acquire_shared_prefix` hands out are a function of the cache entries without their
ticks: `matchChain` walks the chain of blocks as far as every link is cached.
-/

namespace InferenceEngine

open Exec

theorem index_unique_of_count_le_one {l : List Nat} {b j j' : Nat} (hcount : l.count b ≤ 1)
    (hj : l[j]? = some b) (hj' : l[j']? = some b) : j = j' := by
  induction l generalizing j j' with
  | nil => simp at hj
  | cons x xs ih =>
    by_cases hx : x = b
    · subst hx
      have hnot : x ∉ xs := by
        rw [← List.count_eq_zero]
        rw [List.count_cons_self] at hcount
        omega
      cases j with
      | zero =>
        cases j' with
        | zero => rfl
        | succ j' => exact absurd (List.mem_of_getElem? (by simpa using hj')) hnot
      | succ j => exact absurd (List.mem_of_getElem? (by simpa using hj)) hnot
    · rw [List.count_cons_of_ne hx] at hcount
      cases j with
      | zero => exact absurd (by simpa using hj) hx
      | succ j =>
        cases j' with
        | zero => exact absurd (by simpa using hj') hx
        | succ j' =>
          have hjj : j = j' := ih hcount (by simpa using hj) (by simpa using hj')
          rw [hjj]

namespace Pool

variable {K : Type} {c : PoolSizes} {n : Nat} {p : Pool K}

/-- **Ownership**: a block with room past the committed rows of its sequence is at one place of one
table, and not in the cache. -/
theorem Wf.owned (h : p.Wf c n) {i j b : Nat} (hi : i < n) (hj : (p.seqs i).blockTable[j]? = some b)
    (hlt : (p.seqs i).length < (j + 1) * c.blockSize) :
    b ∉ p.cacheRefs ∧ ∀ i' < n, ∀ j', (p.seqs i').blockTable[j']? = some b → i' = i ∧ j' = j := by
  have hone := h.unshared i hi j b hj hlt
  have htable : 0 < (p.seqs i).blockTable.count b := List.count_pos_iff.mpr (List.mem_of_getElem? hj)
  rw [refs, tableRefs_eq hi, Multiset.count_add, Multiset.count_add, Multiset.coe_count] at hone
  refine ⟨Multiset.count_eq_zero.mp (by omega), fun i' hi' j' hj' => ?_⟩
  by_cases hii : i' = i
  · subst hii
    exact ⟨rfl, index_unique_of_count_le_one (by omega) hj' hj⟩
  · have hother : b ∉ p.otherRefs n i := Multiset.count_eq_zero.mp (by omega)
    exact absurd (Multiset.mem_sum.mpr ⟨i', Finset.mem_erase.mpr ⟨hii, Finset.mem_range.mpr hi'⟩,
      Multiset.mem_coe.mpr (List.mem_of_getElem? hj')⟩) hother

/-! ### Returning blocks -/

theorem wp_freeAll {α : Type} (f : α → Nat) {N : Nat} {M : Multiset Nat} (xs : List α) (p : Pool K)
    (h : p.alloc.Tracks N ((xs.map f : List Nat) + M)) :
    wp (forM xs fun x => onAlloc fun a => a.free (f x))
      (fun _ p' => p'.alloc.Tracks N M ∧ p' = { p with alloc := p'.alloc }) (fun _ _ => False) p := by
  have hloop := wp_forM (f := fun x => (onAlloc fun a => a.free (f x) : EStateM Error (Pool K) Unit))
    (I := fun todo q => q.alloc.Tracks N ((todo.map f : List Nat) + M) ∧ q = { p with alloc := q.alloc })
    (E := fun _ _ => False) ?_ xs p ⟨h, rfl⟩
  · exact wp_mono hloop (fun _ q hq => by simpa using hq) fun _ _ hf => hf
  · intro x todo q ⟨hq, hp⟩
    rw [List.map_cons, ← Multiset.cons_coe, Multiset.cons_add] at hq
    obtain ⟨a, ha, ht, -⟩ := hq.free_eq
    exact wp_onAlloc ha ⟨ht, by rw [hp]⟩

/-- A sequence has given all its blocks back. -/
structure Freed (id : Nat) (p p' : Pool K) : Prop where
  keys : p'.keys = p.keys
  values : p'.values = p.values
  self : p'.seqs id = {}
  others : ∀ i, i ≠ id → p'.seqs i = p.seqs i
  prefixes : p'.prefixes = p.prefixes
  refs : ∀ n, id < n → p'.refs n = p.otherRefs n id + p.cacheRefs

theorem wp_free {id : Nat} (hid : id < n) (h : p.Wf c n) :
    wp (free id) (fun _ p' => p'.Wf c n ∧ Freed id p p') (fun _ _ => False) p := by
  have hsplit : p.refs n = (p.seqs id).blockTable + (p.otherRefs n id + p.cacheRefs) := by
    rw [refs, tableRefs_eq hid, add_assoc]
  have htracked := h.tracked
  rw [Tracked, hsplit] at htracked
  simp only [free, wp_bind, wp_get, wp_modify]
  refine wp_mono (wp_freeAll (fun b => b) _ p (by simpa using htracked)) ?_ fun _ _ hf => hf
  rintro _ p' ⟨ht, hp'⟩
  have hseqs : p'.seqs = p.seqs := by rw [hp']
  have hprefixes : p'.prefixes = p.prefixes := by rw [hp']
  have hrefs : ∀ n, id < n → (p'.setSeq id {}).refs n = p.otherRefs n id + p.cacheRefs := by
    intro n hid
    have hother : p'.otherRefs n id = p.otherRefs n id := by rw [otherRefs, hseqs]; rfl
    rw [refs, tableRefs_setSeq hid, cacheRefs_setSeq, hother]
    simp [cacheRefs, hprefixes]
  have hle : (p'.setSeq id {}).refs n ≤ p.refs n := by
    rw [hrefs n hid, hsplit]
    exact le_add_of_nonneg_left (Multiset.zero_le _)
  refine ⟨⟨?_, fun i hi => ?_, fun i => ?_, fun i hi j b hj hlt => ?_, fun e he => ?_⟩,
    ⟨by rw [hp']; rfl, by rw [hp']; rfl, by simp, fun i hi => ?_, hprefixes, hrefs⟩⟩
  · rw [Tracked, hrefs n hid]
    exact ht
  · rw [setSeq_seqs_of_ne _ _ (by omega), hseqs]
    exact h.fresh i hi
  · by_cases hi : i = id
    · subst hi
      simp
    · rw [setSeq_seqs_of_ne _ _ hi, hseqs]
      exact h.length_le i
  · by_cases hi' : i = id
    · subst hi'
      simp at hj
    · rw [setSeq_seqs_of_ne _ _ hi', hseqs] at hj hlt
      exact h.count_eq_one_of_le hle hi (by rw [setSeq_seqs_of_ne _ _ hi', hseqs]) hj hlt
  · rw [setSeq_prefixes, hprefixes] at he
    exact h.entries e he
  · rw [setSeq_seqs_of_ne _ _ hi, hseqs]

theorem wp_clearPrefixCache (h : p.Wf c n) :
    wp clearPrefixCache
      (fun _ p' => p'.Wf c n ∧ p' = { p with alloc := p'.alloc, prefixes := [] }) (fun _ _ => False) p := by
  have htracked := h.tracked
  rw [Tracked, refs, add_comm] at htracked
  simp only [clearPrefixCache, wp_bind, wp_get, wp_modify]
  refine wp_mono (wp_freeAll (fun e : Hash × PrefixEntry => e.2.block) _ p htracked) ?_ fun _ _ hf => hf
  rintro _ p' ⟨ht, hp'⟩
  have hrefs : ({ p' with prefixes := [] } : Pool K).refs n = p.tableRefs n := by
    rw [hp']
    simp only [refs, cacheRefs, List.map_nil, Multiset.coe_nil, add_zero]
    rfl
  have hle : ({ p' with prefixes := [] } : Pool K).refs n ≤ p.refs n := by
    rw [hrefs, refs]
    exact le_add_of_nonneg_right (Multiset.zero_le _)
  have hseqs : p'.seqs = p.seqs := by rw [hp']
  refine ⟨⟨?_, fun i hi => ?_, fun i => ?_, fun i hi j b hj hlt => ?_, fun e he => ?_⟩, by rw [hp']⟩
  · rw [Tracked, hrefs]
    exact ht
  · rw [hseqs]
    exact h.fresh i hi
  · rw [hseqs]
    exact h.length_le i
  · rw [hseqs] at hj hlt
    exact h.count_eq_one_of_le hle hi (by rw [hseqs]) hj hlt
  · simp at he

theorem Wf.commit {id : Nat} (nNew : Nat) (hid : id < n) (h : p.Wf c n)
    (hle : (p.seqs id).length + nNew ≤ (p.seqs id).blockTable.length * c.blockSize) :
    (p.commit id nNew).Wf c n := by
  have hrefs : (p.commit id nNew).refs n = p.refs n := by
    refine refs_congr (fun i => ?_) rfl
    by_cases hi : i = id
    · subst hi
      simp [Pool.commit]
    · rw [Pool.commit, setSeq_seqs_of_ne _ _ hi]
  refine ⟨?_, fun i hi => ?_, fun i => ?_, fun i hi j b hj hlt => ?_, h.entries⟩
  · rw [Tracked, hrefs]
    exact h.tracked
  · rw [Pool.commit, setSeq_seqs_of_ne _ _ (by omega)]
    exact h.fresh i hi
  · by_cases hi : i = id
    · subst hi
      simpa [Pool.commit] using hle
    · rw [Pool.commit, setSeq_seqs_of_ne _ _ hi]
      exact h.length_le i
  · rw [hrefs]
    by_cases hi' : i = id
    · subst hi'
      simp only [Pool.commit, setSeq_seqs_self] at hj hlt
      exact h.unshared i hi j b hj (by omega)
    · simp only [Pool.commit, setSeq_seqs_of_ne _ _ hi'] at hj hlt
      exact h.unshared i hi j b hj hlt

/-! ### Acquiring a cached prefix -/

/-- An entry without its tick. -/
def untick (e : Hash × PrefixEntry) : Hash × PrefixEntry := (e.1, { e.2 with lastUsed := 0 })

/-- The entry a probe finds. -/
def findEntry (c : PoolSizes) (h parent : Hash) (span : List Int) (entries : List (Hash × PrefixEntry)) :
    Option (Hash × PrefixEntry) :=
  entries.find? fun e => e.1 = h ∧ e.2.Matches c parent span

/-- The cached blocks of a chain, up to the first block that is not cached. -/
def matchChain (c : PoolSizes) (entries : List (Hash × PrefixEntry)) :
    List (List Int) → Hash → List Nat
  | [], _ => []
  | span :: spans, parent =>
    match findEntry c (hashBlock parent span) parent span entries with
    | none => []
    | some e => e.2.block :: matchChain c entries spans (hashBlock parent span)

theorem findEntry_some {h parent : Hash} {span : List Int} {entries : List (Hash × PrefixEntry)}
    {e : Hash × PrefixEntry} (he : findEntry c h parent span entries = some e) :
    e ∈ entries ∧ e.1 = h ∧ e.2.Matches c parent span :=
  ⟨List.mem_of_find?_eq_some he, by simpa using List.find?_some he⟩

theorem findEntry_congr {h parent : Hash} {span : List Int} {es es' : List (Hash × PrefixEntry)}
    (hes : es'.map untick = es.map untick) :
    (findEntry c h parent span es').map untick = (findEntry c h parent span es).map untick := by
  have hmap : ∀ l : List (Hash × PrefixEntry), (findEntry c h parent span l).map untick =
      (l.map untick).find? fun e => e.1 = h ∧ e.2.Matches c parent span := by
    intro l
    rw [List.find?_map]
    rfl
  rw [hmap, hmap, hes]

theorem matchChain_congr {es es' : List (Hash × PrefixEntry)} (hes : es'.map untick = es.map untick)
    (spans : List (List Int)) (parent : Hash) :
    matchChain c es' spans parent = matchChain c es spans parent := by
  induction spans generalizing parent with
  | nil => rfl
  | cons span spans ih =>
    have hfind : (findEntry c (hashBlock parent span) parent span es').map untick =
        (findEntry c (hashBlock parent span) parent span es).map untick := findEntry_congr hes
    simp only [matchChain]
    cases hx : findEntry c (hashBlock parent span) parent span es' with
    | none =>
      cases hy : findEntry c (hashBlock parent span) parent span es with
      | none => rfl
      | some y => simp [hx, hy] at hfind
    | some x =>
      cases hy : findEntry c (hashBlock parent span) parent span es with
      | none => simp [hx, hy] at hfind
      | some y =>
        have hblock : x.2.block = y.2.block := by
          simp only [hx, hy, Option.map_some, Option.some.injEq, untick, Prod.mk.injEq,
            PrefixEntry.mk.injEq] at hfind
          exact hfind.2.2.2.1
        simp only [hblock, ih]

theorem matchChain_subset (spans : List (List Int)) (parent : Hash) :
    ∀ b ∈ matchChain c p.prefixes spans parent, b ∈ p.cacheRefs := by
  induction spans generalizing parent with
  | nil => simp [matchChain]
  | cons span spans ih =>
    intro b hb
    simp only [matchChain] at hb
    cases he : findEntry c (hashBlock parent span) parent span p.prefixes with
    | none => simp [he] at hb
    | some e =>
      simp only [he, List.mem_cons] at hb
      rcases hb with rfl | hb
      · exact mem_cacheRefs (findEntry_some he).1
      · exact ih _ b hb

theorem length_matchChain_le (es : List (Hash × PrefixEntry)) (spans : List (List Int))
    (parent : Hash) : (matchChain c es spans parent).length ≤ spans.length := by
  induction spans generalizing parent with
  | nil => simp [matchChain]
  | cons span spans ih =>
    simp only [matchChain]
    cases findEntry c (hashBlock parent span) parent span es with
    | none => simp
    | some e => simpa using ih _

theorem exists_mem_of_map_untick {es es' : List (Hash × PrefixEntry)}
    (hes : es'.map untick = es.map untick) {e : Hash × PrefixEntry} (he : e ∈ es') :
    ∃ e₀ ∈ es, e.1 = e₀.1 ∧ e.2.parent = e₀.2.parent ∧ e.2.tokens = e₀.2.tokens ∧
      e.2.block = e₀.2.block := by
  have hmem : untick e ∈ es.map untick := hes ▸ List.mem_map_of_mem he
  obtain ⟨e₀, he₀, heq⟩ := List.mem_map.mp hmem
  simp only [untick, Prod.mk.injEq, PrefixEntry.mk.injEq] at heq
  exact ⟨e₀, he₀, heq.1.symm, heq.2.1.symm, heq.2.2.1.symm, heq.2.2.2.1.symm⟩

theorem map_block_of_map_untick {es es' : List (Hash × PrefixEntry)}
    (hes : es'.map untick = es.map untick) : es'.map (·.2.block) = es.map (·.2.block) := by
  have h := congrArg (List.map fun e : Hash × PrefixEntry => e.2.block) hes
  simpa [untick, Function.comp_def] using h

theorem probe_eq (h parent : Hash) (span : List Int) (tick : Nat) (es : List (Hash × PrefixEntry)) :
    match findEntry c h parent span es with
    | none => probe c h parent span tick es = none
    | some e => ∃ es', probe c h parent span tick es = some (e.2.block, es') ∧
        es'.map untick = es.map untick := by
  induction es with
  | nil => simp [findEntry, probe]
  | cons x es ih =>
    obtain ⟨key, e⟩ := x
    by_cases hx : key = h ∧ e.Matches c parent span
    · simp only [findEntry, List.find?_cons, hx, probe, and_self, decide_true, if_true]
      exact ⟨_, rfl, rfl⟩
    · have hfind : findEntry c h parent span ((key, e) :: es) = findEntry c h parent span es := by
        simp [findEntry, hx]
      rw [hfind]
      simp only [probe, if_neg hx]
      cases hy : findEntry c h parent span es with
      | none =>
        simp only [hy] at ih
        simp [ih]
      | some y =>
        simp only [hy] at ih
        obtain ⟨es', hprobe, hmap⟩ := ih
        exact ⟨(key, e) :: es', by simp [hprobe], by simp [hmap]⟩

/-- A sequence has taken over the cached blocks `blocks`. -/
structure Acquired (id : Nat) (blocks : List Nat) (p p' : Pool K) : Prop where
  keys : p'.keys = p.keys
  values : p'.values = p.values
  table : (p'.seqs id).blockTable = (p.seqs id).blockTable ++ blocks
  others : ∀ i, i ≠ id → p'.seqs i = p.seqs i
  prefixes : p'.prefixes.map untick = p.prefixes.map untick
  freeList : p'.alloc.freeList = p.alloc.freeList

theorem wp_acquireFrom {id : Nat} (hid : id < n) (spans : List (List Int)) (parent : Hash) (p : Pool K)
    (h : p.Tracked c n) :
    wp (acquireFrom c id spans parent)
      (fun m p' => m = (matchChain c p.prefixes spans parent).length * c.blockSize ∧ p'.Tracked c n ∧
        Acquired id (matchChain c p.prefixes spans parent) p p' ∧
        (p'.seqs id).length = (p.seqs id).length)
      (fun _ _ => False) p := by
  induction spans generalizing parent p with
  | nil =>
    simp only [acquireFrom, wp_pure, matchChain, List.length_nil, Nat.zero_mul]
    exact ⟨trivial, h, ⟨rfl, rfl, by simp, fun _ _ => rfl, rfl, rfl⟩, trivial⟩
  | cons span spans ih =>
    have hprobe := probe_eq (c := c) (hashBlock parent span) parent span (p.tick + 1) p.prefixes
    simp only [acquireFrom, wp_bind, wp_get, matchChain]
    cases he : findEntry c (hashBlock parent span) parent span p.prefixes with
    | none =>
      simp only [he] at hprobe
      simp only [hprobe, wp_pure, List.length_nil, Nat.zero_mul]
      exact ⟨trivial, h, ⟨rfl, rfl, by simp, fun _ _ => rfl, rfl, rfl⟩, trivial⟩
    | some e =>
      simp only [he] at hprobe
      obtain ⟨es', hp, hes⟩ := hprobe
      simp only [hp, wp_bind, wp_set]
      -- the block is in the cache, so it is live and can be shared
      have hmem : e.2.block ∈ p.refs n := mem_refs_of_mem_prefixes (findEntry_some he).1
      have hrefs : ({ p with prefixes := es', tick := p.tick + 1 } : Pool K).refs n = p.refs n :=
        refs_congr (fun _ => rfl) (map_block_of_map_untick hes)
      obtain ⟨a, ha, ht, hlist⟩ := BlockAllocator.Tracks.incref_eq h hmem
      refine wp_onAlloc ha ?_
      simp only [wp_modify]
      generalize hq : ({ p with alloc := a, prefixes := es', tick := p.tick + 1 } : Pool K) = q
      have hqrefs : q.refs n = p.refs n := by
        rw [← hq, ← hrefs]
        rfl
      have htq : (q.pushBlock id e.2.block).Tracked c n := by
        rw [Tracked, refs_pushBlock hid, hqrefs]
        rw [← hq]
        exact ht
      have hqp : q.prefixes = es' := by rw [← hq]
      have hchain : matchChain c (q.pushBlock id e.2.block).prefixes spans (hashBlock parent span) =
          matchChain c p.prefixes spans (hashBlock parent span) :=
        matchChain_congr (by rw [pushBlock, setSeq_prefixes, hqp, hes]) _ _
      refine wp_mono (ih (hashBlock parent span) _ htq) ?_ fun _ _ hf => hf
      rintro m p' ⟨hm, htp', hacq, hlen⟩
      rw [hchain] at hm hacq
      have hqseqs : q.seqs = p.seqs := by rw [← hq]
      refine ⟨?_, htp', ⟨?_, ?_, ?_, fun i hi => ?_, ?_, ?_⟩, ?_⟩
      · rw [hm, List.length_cons, Nat.succ_mul, Nat.add_comm]
      · rw [hacq.keys, ← hq]; rfl
      · rw [hacq.values, ← hq]; rfl
      · rw [hacq.table]
        simp [pushBlock, hqseqs]
      · rw [hacq.others i hi, pushBlock, setSeq_seqs_of_ne _ _ hi, hqseqs]
      · rw [hacq.prefixes, pushBlock, setSeq_prefixes, hqp, hes]
      · rw [hacq.freeList, ← hlist, ← hq]; rfl
      · rw [hlen]
        simp [pushBlock, hqseqs]

/-- `acquire_shared_prefix` on a fresh sequence: the cached leading blocks become its committed rows. -/
theorem wp_acquireSharedPrefix {id : Nat} (hid : id < n) (tokens : List Int) (h : p.Wf c n)
    (hfresh : p.seqs id = {}) :
    wp (acquireSharedPrefix c id tokens)
      (fun m p' => m = (matchChain c p.prefixes (c.spans tokens) 0).length * c.blockSize ∧ p'.Wf c n ∧
        Acquired id (matchChain c p.prefixes (c.spans tokens) 0) p p' ∧ (p'.seqs id).length = m)
      (fun _ _ => False) p := by
  simp only [acquireSharedPrefix, wp_bind, wp_get, hfresh, ne_eq, not_true_eq_false, or_self, if_false]
  refine wp_mono (wp_acquireFrom hid _ 0 p h.tracked) ?_ fun _ _ hf => hf
  rintro m p' ⟨hm, ht, hacq, -⟩
  simp only [wp_modify, wp_pure]
  generalize hB : matchChain c p.prefixes (c.spans tokens) 0 = blocks at hm hacq
  have htable : (p'.seqs id).blockTable = blocks := by rw [hacq.table, hfresh]; simp
  generalize hq : ({ p'.setSeq id { p'.seqs id with length := m } with
    prefixHits := if 0 < m then p'.prefixHits + 1 else p'.prefixHits } : Pool K) = q
  have hself : q.seqs id = ⟨blocks, m⟩ := by rw [← hq]; simp [setSeq, htable]
  have hothers : ∀ i, i ≠ id → q.seqs i = p.seqs i := by
    intro i hi
    rw [← hacq.others i hi, ← hq]
    exact setSeq_seqs_of_ne _ _ hi
  have hprefixes : q.prefixes = p'.prefixes := by rw [← hq]; rfl
  have hqrefs : q.refs n = p'.refs n := by
    refine refs_congr (fun i => ?_) (by rw [hprefixes])
    by_cases hi : i = id
    · subst hi
      rw [hself, htable]
    · rw [hothers i hi, hacq.others i hi]
  have hprefs : q.refs n = blocks + p.refs n := by
    have hold : p.refs n = p.otherRefs n id + p.cacheRefs := by
      rw [refs, tableRefs_eq hid, hfresh]
      simp
    have hother : q.otherRefs n id = p.otherRefs n id :=
      Finset.sum_congr rfl fun i hi => by rw [hothers i (Finset.ne_of_mem_erase hi)]
    have hcache : q.cacheRefs = p.cacheRefs := by
      rw [cacheRefs, hprefixes, map_block_of_map_untick hacq.prefixes, cacheRefs]
    rw [hold, refs, tableRefs_eq hid, hself, hother, hcache, add_assoc]
  refine ⟨hm, ⟨?_, fun i hi => ?_, fun i => ?_, fun i hi j b hj hlt => ?_, fun e he => ?_⟩,
    ⟨by rw [← hacq.keys, ← hq]; rfl, by rw [← hacq.values, ← hq]; rfl, by rw [hself, hfresh]; simp,
      hothers, by rw [hprefixes, hacq.prefixes], by rw [← hacq.freeList, ← hq]; rfl⟩, by simp⟩
  · rw [Tracked, hqrefs, ← hq]
    exact ht
  · rw [hothers i (by omega)]
    exact h.fresh i hi
  · by_cases hi : i = id
    · subst hi
      rw [hself, hm]
    · rw [hothers i hi]
      exact h.length_le i
  · by_cases hi' : i = id
    · subst hi'
      rw [hself] at hj hlt
      have hjl : j + 1 ≤ blocks.length := (List.getElem?_eq_some_iff.mp hj).1
      have := Nat.mul_le_mul_right c.blockSize hjl
      simp only [hm] at hlt
      omega
    · rw [hothers i hi'] at hj hlt
      have hnot : b ∉ blocks := by
        rw [← hB]
        exact fun hb => (h.owned hi hj hlt).1 (matchChain_subset _ _ b hb)
      rw [hprefs, Multiset.count_add, h.unshared i hi j b hj hlt, Multiset.coe_count,
        List.count_eq_zero_of_not_mem hnot]
  · rw [hprefixes] at he
    obtain ⟨e₀, he₀, hkey, hparent, htokens, -⟩ := exists_mem_of_map_untick hacq.prefixes he
    rw [hkey, hparent, htokens]
    exact h.entries e₀ he₀

/-- On a sequence that is not fresh nothing happens. -/
theorem acquireSharedPrefix_of_not_fresh {id : Nat} (tokens : List Int)
    (h : (p.seqs id).blockTable ≠ [] ∨ (p.seqs id).length ≠ 0) :
    acquireSharedPrefix c id tokens p = .ok 0 p := by
  rw [acquireSharedPrefix, get_bind, if_pos h]
  rfl

/-! ### Registering a prefix -/

/-- The entries `added` cache full blocks of `tokens` held by sequence `id`. -/
structure Registered (c : PoolSizes) (id : Nat) (tokens : List Int) (added : List (Hash × PrefixEntry))
    (p p' : Pool K) : Prop where
  keys : p'.keys = p.keys
  values : p'.values = p.values
  seqs : p'.seqs = p.seqs
  prefixHits : p'.prefixHits = p.prefixHits
  freeList : p'.alloc.freeList = p.alloc.freeList
  prefixes : p'.prefixes = p.prefixes ++ added
  added : ∀ e ∈ added, ∃ j, (p.seqs id).blockTable[j]? = some e.2.block ∧
    (c.spans tokens)[j]? = some e.2.tokens ∧ e.2.parent = chainHash ((c.spans tokens).take j) ∧
    e.1 = hashBlock e.2.parent e.2.tokens

theorem Registered.trans {id : Nat} {tokens : List Int} {added added' : List (Hash × PrefixEntry)}
    {p q r : Pool K} (h : Registered c id tokens added p q) (h' : Registered c id tokens added' q r) :
    Registered c id tokens (added ++ added') p r where
  keys := h'.keys.trans h.keys
  values := h'.values.trans h.values
  seqs := h'.seqs.trans h.seqs
  prefixHits := h'.prefixHits.trans h.prefixHits
  freeList := h'.freeList.trans h.freeList
  prefixes := by rw [h'.prefixes, h.prefixes, List.append_assoc]
  added e he := by
    rcases List.mem_append.mp he with he | he
    · exact h.added e he
    · rw [← h.seqs]
      exact h'.added e he

theorem Registered.refl (c : PoolSizes) (id : Nat) (tokens : List Int) (p : Pool K) :
    Registered c id tokens [] p p :=
  ⟨rfl, rfl, rfl, rfl, rfl, by simp, by simp⟩

/-- One turn of the loop of `register_prefix`, for a block below the committed rows. -/
theorem wp_registerBlock {id j block : Nat} {tokens span : List Int} (hid : id < n) (h : p.Wf c n)
    (hlen : tokens.length ≤ (p.seqs id).length) (hblock : (p.seqs id).blockTable[j]? = some block)
    (hspan : (c.spans tokens)[j]? = some span) :
    wp (registerBlock c (chainHash ((c.spans tokens).take j)) span block)
      (fun h' p' => h' = chainHash ((c.spans tokens).take (j + 1)) ∧ p'.Wf c n ∧
        ∃ added, Registered c id tokens added p p')
      (fun _ _ => False) p := by
  have hnext : chainHash ((c.spans tokens).take (j + 1)) =
      hashBlock (chainHash ((c.spans tokens).take j)) span := by
    rw [List.take_add_one, hspan, Option.toList_some, chainHash_snoc]
  simp only [registerBlock, wp_bind, wp_get]
  refine wp_ite (fun _ => ?_) fun _ => ?_
  swap
  · exact ⟨hnext.symm, h, [], Registered.refl c id tokens p⟩
  · obtain ⟨a, ha, ht, hlist⟩ := h.tracked.incref_eq
      (mem_refs_of_mem_table hid (List.mem_of_getElem? hblock))
    simp only [wp_bind]
    refine wp_onAlloc ha ?_
    simp only [wp_modify, wp_pure]
    generalize hadd : (hashBlock (chainHash ((c.spans tokens).take j)) span,
      (⟨chainHash ((c.spans tokens).take j), span, block, p.tick + 1⟩ : PrefixEntry)) = e
    have hblock' : e.2.block = block := by rw [← hadd]
    generalize hq : ({ p with
      alloc := a, prefixes := p.prefixes ++ [e], tick := p.tick + 1 } : Pool K) = q
    have hrefs : q.refs n = block ::ₘ p.refs n := by
      have hcache : q.cacheRefs = block ::ₘ p.cacheRefs := by
        rw [cacheRefs, ← hq]
        simp only [List.map_append, List.map_cons, List.map_nil, hblock', cacheRefs,
          Multiset.cons_coe, Multiset.coe_eq_coe]
        exact List.perm_append_singleton _ _
      rw [refs, hcache, Multiset.add_cons, ← hq]
      rfl
    have hseqs : q.seqs = p.seqs := by rw [← hq]
    have hj : j < tokens.length / c.blockSize := by
      rw [← c.length_spans]
      exact (List.getElem?_eq_some_iff.mp hspan).1
    have hcommitted : (j + 1) * c.blockSize ≤ (p.seqs id).length :=
      ((Nat.mul_le_mul_right _ hj).trans (Nat.div_mul_le_self _ _)).trans hlen
    refine ⟨hnext.symm, ⟨?_, fun i hi => ?_, fun i => ?_, fun i hi k b hk hlt => ?_, fun x hx => ?_⟩,
      [e], ⟨by rw [← hq], by rw [← hq], hseqs, by rw [← hq], by rw [← hq, hlist], by rw [← hq], ?_⟩⟩
    · rw [Tracked, hrefs, ← hq]
      exact ht
    · rw [hseqs]
      exact h.fresh i hi
    · rw [hseqs]
      exact h.length_le i
    · rw [hseqs] at hk hlt
      have hne : b ≠ block := by
        rintro rfl
        obtain ⟨rfl, rfl⟩ := (h.owned hi hk hlt).2 id hid j hblock
        omega
      rw [hrefs, Multiset.count_cons_of_ne hne]
      exact h.unshared i hi k b hk hlt
    · rw [← hq] at hx
      rcases List.mem_append.mp hx with hx | hx
      · exact h.entries x hx
      · rw [List.mem_singleton.mp hx, ← hadd]
        exact ⟨rfl, c.length_of_mem_spans (List.mem_of_getElem? hspan)⟩
    · intro x hx
      rw [List.mem_singleton.mp hx, ← hadd]
      exact ⟨j, hblock, hspan, rfl, rfl⟩

/-- `register_prefix` with tokens the committed rows cover: blocks of the sequence enter the cache
under the hashes of their chains. -/
theorem wp_registerPrefix {id : Nat} {tokens : List Int} (hid : id < n) (h : p.Wf c n)
    (hlen : tokens.length ≤ (p.seqs id).length) :
    wp (registerPrefix c id tokens)
      (fun _ p' => p'.Wf c n ∧ ∃ added, Registered c id tokens added p p') (fun _ _ => False) p := by
  simp only [registerPrefix, wp_bind, wp_get]
  generalize hpairs : (c.spans tokens).zip (p.seqs id).blockTable = pairs
  have hloop := wp_foldlM (f := fun parent (x : List Int × Nat) => registerBlock (K := K) c parent x.1 x.2)
    (I := fun todo parent q => ∃ j, todo = pairs.drop j ∧ parent = chainHash ((c.spans tokens).take j) ∧
      q.Wf c n ∧ ∃ added, Registered c id tokens added p q)
    (E := fun _ _ => False) ?_ pairs 0 p ⟨0, by simp, by simp, h, [], Registered.refl c id tokens p⟩
  · refine wp_mono hloop ?_ fun _ _ hf => hf
    rintro _ q ⟨_, -, -, hq⟩
    exact hq
  · rintro ⟨span, block⟩ todo parent q ⟨j, htodo, rfl, hq, added, hreg⟩
    have hpair : pairs[j]? = some (span, block) := by
      rw [← List.head?_drop, ← htodo, List.head?_cons]
    have hrest : pairs.drop (j + 1) = todo := by
      rw [← List.tail_drop, ← htodo, List.tail_cons]
    rw [← hpairs, List.getElem?_zip_eq_some] at hpair
    refine wp_mono (wp_registerBlock hid hq ?_ ?_ hpair.1) ?_
      fun _ _ hf => hf
    · rwa [hreg.seqs]
    · rw [hreg.seqs]
      exact hpair.2
    · rintro _ q' ⟨rfl, hq', added', hreg'⟩
      exact ⟨j + 1, hrest.symm, rfl, hq', added ++ added', hreg.trans hreg'⟩

end Pool

end InferenceEngine
