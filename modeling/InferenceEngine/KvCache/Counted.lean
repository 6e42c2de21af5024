import InferenceEngine.KvCache.PrefixSoundness

/-!
# The pool under any use

What holds of a pool whatever its callers do, also when they commit rows they have not written or register
blocks they have not filled: the allocator counts the references, and the entries of the cache have links
and ticks of their own.
-/

namespace InferenceEngine

open Exec

namespace Pool

variable {K : Type} {c : PoolSizes} {n : Nat} {p p' : Pool K}

/-- No two entries were last used at one tick, and none after the present one. -/
structure Ticked (p : Pool K) : Prop where
  nodup : (p.prefixes.map fun e => e.2.lastUsed).Nodup
  le : ∀ e ∈ p.prefixes, e.2.lastUsed ≤ p.tick

/-- The invariant of a pool with sequences `0..n - 1`, in any use. -/
structure Counted (c : PoolSizes) (n : Nat) (p : Pool K) : Prop where
  tracked : p.Tracked c n
  fresh : ∀ i, n ≤ i → p.seqs i = {}
  keyed : p.Keyed c
  links : p.LinksNodup
  ticked : p.Ticked

theorem counted_create [Zero K] (n : Nat) : (create c : Pool K).Counted c n where
  tracked := (wf_create n).tracked
  fresh _ _ := rfl
  keyed _ he := by simp [create] at he
  links := List.nodup_nil
  ticked := ⟨List.nodup_nil, fun _ he => by simp [create] at he⟩

namespace Counted

/-- A block whose only reference is an entry of the cache backs no other entry. -/
theorem eq_of_refCount_eq_one (h : p.Counted c n) {e e' : Hash × PrefixEntry} (he : e ∈ p.prefixes)
    (he' : e' ∈ p.prefixes) (hone : p.alloc.refCount e.2.block = 1) (hblock : e'.2.block = e.2.block) :
    e' = e := by
  rw [h.tracked.refCount_eq, refs, Multiset.count_add, cacheRefs, Multiset.coe_count] at hone
  have hcount : (p.prefixes.map fun e => e.2.block).count e.2.block ≤ 1 := by omega
  obtain ⟨j, hj⟩ := List.getElem?_of_mem he
  obtain ⟨j', hj'⟩ := List.getElem?_of_mem he'
  have hsame : j' = j := index_unique_of_count_le_one hcount (by simp [hj', hblock]) (by simp [hj])
  rw [hsame, hj, Option.some.injEq] at hj'
  exact hj'.symm

theorem congr (h : p.Counted c n) (ht : p'.Tracked c n) (hseqs : ∀ i, n ≤ i → p'.seqs i = p.seqs i)
    (hprefixes : p'.prefixes = p.prefixes) (htick : p'.tick = p.tick) : p'.Counted c n where
  tracked := ht
  fresh i hi := (hseqs i hi).trans (h.fresh i hi)
  keyed := by
    unfold Keyed
    rw [hprefixes]
    exact h.keyed
  links := by
    unfold LinksNodup
    rw [hprefixes]
    exact h.links
  ticked := by
    constructor
    · rw [hprefixes]
      exact h.ticked.nodup
    · rw [hprefixes, htick]
      exact h.ticked.le

theorem sublist (h : p.Counted c n) (ht : p'.Tracked c n) (hseqs : ∀ i, n ≤ i → p'.seqs i = p.seqs i)
    (hprefixes : p'.prefixes.Sublist p.prefixes) (htick : p'.tick = p.tick) : p'.Counted c n where
  tracked := ht
  fresh i hi := (hseqs i hi).trans (h.fresh i hi)
  keyed e he := h.keyed e (hprefixes.subset he)
  links := h.links.sublist (hprefixes.map _)
  ticked := ⟨h.ticked.nodup.sublist (hprefixes.map _), fun e he => htick ▸ h.ticked.le e (hprefixes.subset he)⟩

/-! ### Writing, committing and returning blocks -/

theorem write (h : p.Counted c n) (id layer start : Nat) (k v : Rows K) (len : Nat) :
    (p.write c id layer start k v len).Counted c n :=
  h.congr h.tracked (fun _ _ => rfl) rfl rfl

theorem commit (h : p.Counted c n) {id : Nat} (hid : id < n) (len : Nat) : (p.commit id len).Counted c n := by
  apply h.congr
  · have hrefs : (p.commit id len).refs n = p.refs n := by
      refine refs_congr (fun i => ?_) rfl
      by_cases hi : i = id
      · subst hi
        simp [Pool.commit]
      · rw [Pool.commit, setSeq_seqs_of_ne _ _ hi]
    rw [Tracked, hrefs]
    exact h.tracked
  · intro i hi
    rw [Pool.commit, setSeq_seqs_of_ne _ _ (by omega)]
  · rfl
  · rfl

/-- `free`, in a state in which every block of the sequence has another reference, puts none on the free
list. -/
theorem wp_free (h : p.Counted c n) {id : Nat} (hid : id < n) :
    wp (Pool.free id)
      (fun _ p' => p'.Counted c n ∧ p'.prefixes = p.prefixes ∧ p'.tick = p.tick ∧ p'.seqs id = {} ∧
        (∀ i, i ≠ id → p'.seqs i = p.seqs i) ∧
        ((∀ b ∈ (p.seqs id).blockTable, b ∈ p.otherRefs n id + p.cacheRefs) →
          p'.alloc.freeList = p.alloc.freeList))
      (fun _ _ => False) p := by
  have hsplit : p.refs n = (p.seqs id).blockTable + (p.otherRefs n id + p.cacheRefs) := by
    rw [refs, tableRefs_eq hid, add_assoc]
  have htracked := h.tracked
  rw [Tracked, hsplit] at htracked
  simp only [Pool.free, wp_bind, wp_get, wp_modify]
  generalize hM : p.otherRefs n id + p.cacheRefs = M at htracked
  have hloop := wp_forM (f := fun b => (onAlloc fun a => a.free b : EStateM Error (Pool K) Unit))
    (I := fun todo q => q.alloc.Tracks c.numBlocks ((todo : List Nat) + M) ∧ q = { p with alloc := q.alloc } ∧
      ((∀ b ∈ (p.seqs id).blockTable, b ∈ M) → (∀ b ∈ todo, b ∈ M) ∧ q.alloc.freeList = p.alloc.freeList))
    (E := fun _ _ => False) ?_ (p.seqs id).blockTable p ⟨htracked, rfl, fun hall => ⟨hall, rfl⟩⟩
  · apply wp_mono hloop ?_ fun _ _ hf => hf
    rintro _ q ⟨ht, hq, hfree⟩
    have hqseqs : q.seqs = p.seqs := by rw [hq]
    refine ⟨?_, by rw [setSeq_prefixes, hq], by rw [hq]; rfl, setSeq_seqs_self _ _ _, fun i hi => ?_,
      fun hall => (hfree hall).2⟩
    · apply h.congr
      · have hother : q.otherRefs n id = p.otherRefs n id := by rw [otherRefs, hqseqs]; rfl
        have hcache : q.cacheRefs = p.cacheRefs := by rw [hq]; rfl
        rw [Tracked, refs, tableRefs_setSeq hid, cacheRefs_setSeq, hother, hcache, add_assoc, hM]
        exact ht
      · intro i hi
        rw [setSeq_seqs_of_ne _ _ (by omega), hqseqs]
      · rw [setSeq_prefixes, hq]
      · rw [hq]
        rfl
    · rw [setSeq_seqs_of_ne _ _ hi, hqseqs]
  · rintro b todo q ⟨ht, hq, hfree⟩
    rw [← Multiset.cons_coe, Multiset.cons_add] at ht
    obtain ⟨a, ha, hta, hlist⟩ := ht.free_eq
    apply wp_onAlloc ha
    refine ⟨hta, by rw [hq], fun hall => ?_⟩
    obtain ⟨htodo, hsame⟩ := hfree hall
    refine ⟨fun x hx => htodo x (List.mem_cons_of_mem _ hx), ?_⟩
    have hmem : b ∈ (todo : Multiset Nat) + M := Multiset.mem_add.mpr (.inr (htodo b List.mem_cons_self))
    rw [hlist, if_pos hmem]
    exact hsame

theorem wp_clearPrefixCache (h : p.Counted c n) :
    wp Pool.clearPrefixCache (fun _ p' => p'.Counted c n ∧ p'.prefixes = []) (fun _ _ => False) p := by
  have htracked := h.tracked
  rw [Tracked, refs, add_comm] at htracked
  simp only [Pool.clearPrefixCache, wp_bind, wp_get, wp_modify]
  apply wp_mono (wp_freeAll (fun e : Hash × PrefixEntry => e.2.block) _ p htracked) ?_ fun _ _ hf => hf
  rintro _ q ⟨ht, hq⟩
  refine ⟨h.sublist ?_ (fun i _ => by rw [hq]) (List.nil_sublist _) (by rw [hq]), trivial⟩
  have hrefs : ({ q with prefixes := [] } : Pool K).refs n = p.tableRefs n := by
    rw [hq]
    simp only [refs, cacheRefs, List.map_nil, Multiset.coe_nil, add_zero]
    rfl
  rw [Tracked, hrefs]
  exact ht

end Counted

/-! ### Acquiring -/

/-- A hit moves one entry to the present tick. -/
theorem probe_ticks {h parent : Hash} {span : List Int} {t block : Nat} {es es' : List (Hash × PrefixEntry)}
    (hprobe : probe c h parent span t es = some (block, es')) (hnodup : (es.map fun e => e.2.lastUsed).Nodup)
    (hlt : ∀ e ∈ es, e.2.lastUsed < t) :
    (es'.map fun e => e.2.lastUsed).Nodup ∧
      ∀ e' ∈ es', e'.2.lastUsed = t ∨ ∃ e ∈ es, e.2.lastUsed = e'.2.lastUsed := by
  induction es generalizing es' with
  | nil => simp [probe] at hprobe
  | cons x es ih =>
    obtain ⟨key, e⟩ := x
    rw [List.map_cons, List.nodup_cons] at hnodup
    have hlt' : ∀ e ∈ es, e.2.lastUsed < t := fun e he => hlt e (List.mem_cons_of_mem _ he)
    rw [probe] at hprobe
    split at hprobe
    · simp only [Option.some.injEq, Prod.mk.injEq] at hprobe
      obtain ⟨-, rfl⟩ := hprobe
      constructor
      · rw [List.map_cons, List.nodup_cons]
        refine ⟨fun hmem => ?_, hnodup.2⟩
        obtain ⟨e', he', heq⟩ := List.mem_map.mp hmem
        exact absurd heq (hlt' e' he').ne
      · intro e' he'
        rcases List.mem_cons.mp he' with rfl | he'
        · exact .inl rfl
        · exact .inr ⟨e', List.mem_cons_of_mem _ he', rfl⟩
    · obtain ⟨⟨block', rest⟩, hrest, heq⟩ := Option.map_eq_some_iff.mp hprobe
      simp only [Prod.mk.injEq] at heq
      obtain ⟨rfl, rfl⟩ := heq
      obtain ⟨hnodup', hmem'⟩ := ih hrest hnodup.2 hlt'
      constructor
      · rw [List.map_cons, List.nodup_cons]
        refine ⟨fun hmem => ?_, hnodup'⟩
        obtain ⟨e', he', heq⟩ := List.mem_map.mp hmem
        obtain hnow | ⟨e₀, he₀, hold⟩ := hmem' e' he'
        · have := hlt (key, e) List.mem_cons_self
          simp only at heq this
          omega
        · exact hnodup.1 (List.mem_map.mpr ⟨e₀, he₀, hold.trans heq⟩)
      · intro e' he'
        rcases List.mem_cons.mp he' with rfl | he'
        · exact .inr ⟨_, List.mem_cons_self, rfl⟩
        · obtain hnow | ⟨e₀, he₀, hold⟩ := hmem' e' he'
          · exact .inl hnow
          · exact .inr ⟨e₀, List.mem_cons_of_mem _ he₀, hold⟩

theorem wp_acquireFrom_ticked (id : Nat) (spans : List (List Int)) (parent : Hash) (p : Pool K) (h : p.Ticked) :
    wp (acquireFrom c id spans parent) (fun _ p' => p'.Ticked) (fun _ _ => True) p := by
  induction spans generalizing parent p with
  | nil => exact h
  | cons span spans ih =>
    simp only [acquireFrom, wp_bind, wp_get]
    cases hprobe : probe c (hashBlock parent span) parent span (p.tick + 1) p.prefixes with
    | none => exact h
    | some found =>
      obtain ⟨block, es'⟩ := found
      simp only [wp_bind, wp_set, onAlloc, wp_get, wp_lift, wp_modify]
      refine ⟨fun a _ => ?_, fun _ _ => trivial⟩
      obtain ⟨hnodup, hmem⟩ := probe_ticks hprobe h.nodup fun e he => Nat.lt_succ_of_le (h.le e he)
      refine wp_mono (ih _ _ ⟨hnodup, fun e he => ?_⟩) (fun _ _ hq => hq) fun _ _ ht => ht
      obtain hnow | ⟨e₀, he₀, hold⟩ := hmem e he
      · exact hnow.le
      · exact hold ▸ (h.le e₀ he₀).trans (Nat.le_succ _)

/-- The fresh sequence `id` has taken over the cached blocks `blocks`, and `m` tokens with them. -/
structure Adopted (n id : Nat) (blocks : List Nat) (m : Nat) (p p' : Pool K) : Prop where
  self : p'.seqs id = ⟨blocks, m⟩
  others : ∀ i, i ≠ id → p'.seqs i = p.seqs i
  prefixes : p'.prefixes.map untick = p.prefixes.map untick
  freeList : p'.alloc.freeList = p.alloc.freeList
  refs : p'.refs n = (blocks : Multiset Nat) + p.refs n

/-- The entry is for a block of the sequence, the first of the tokens' blocks with its link. -/
def FirstAt (c : PoolSizes) (id : Nat) (tokens : List Int) (p : Pool K) (e : Hash × PrefixEntry) : Prop :=
  ∃ j, (p.seqs id).blockTable[j]? = some e.2.block ∧ HasLink (c.spans tokens) j (entryLink e) ∧
    ∀ i < j, ¬HasLink (c.spans tokens) i (entryLink e)

namespace Counted

theorem wp_acquireSharedPrefix (h : p.Counted c n) {id : Nat} (hid : id < n) (tokens : List Int)
    (hfresh : p.seqs id = {}) :
    wp (Pool.acquireSharedPrefix c id tokens)
      (fun m p' => p'.Counted c n ∧ m = (matchChain c p.prefixes (c.spans tokens) 0).length * c.blockSize ∧
        Adopted n id (matchChain c p.prefixes (c.spans tokens) 0) m p p')
      (fun _ _ => False) p := by
  simp only [Pool.acquireSharedPrefix, wp_bind, wp_get, hfresh, ne_eq, not_true_eq_false, or_self, if_false]
  have hboth := wp_and (wp_acquireFrom hid (c.spans tokens) 0 p h.tracked)
    (wp_acquireFrom_ticked (c := c) id (c.spans tokens) 0 p h.ticked)
  apply wp_mono hboth ?_ fun _ _ hf => hf.1
  rintro m q ⟨⟨hm, ht, hacq, -⟩, hticked⟩
  simp only [wp_modify, wp_pure]
  generalize matchChain c p.prefixes (c.spans tokens) 0 = blocks at hm hacq ⊢
  have htable : (q.seqs id).blockTable = blocks := by rw [hacq.table, hfresh]; rfl
  generalize hp' : ({ q.setSeq id { q.seqs id with length := m } with
    prefixHits := if 0 < m then q.prefixHits + 1 else q.prefixHits } : Pool K) = p'
  have hself : p'.seqs id = ⟨blocks, m⟩ := by rw [← hp']; simp [setSeq, htable]
  have hothers : ∀ i, i ≠ id → p'.seqs i = p.seqs i := by
    intro i hi
    rw [← hacq.others i hi, ← hp']
    exact setSeq_seqs_of_ne _ _ hi
  have hprefixes : p'.prefixes = q.prefixes := by rw [← hp']; rfl
  have hrefs : p'.refs n = q.refs n := by
    apply refs_congr _ (by rw [hprefixes])
    intro i
    by_cases hi : i = id
    · subst hi
      rw [hself, htable]
    · rw [hothers i hi, hacq.others i hi]
  refine ⟨⟨?_, fun i hi => ?_, fun e he => ?_, ?_, ?_⟩, hm, ⟨hself, hothers, by rw [hprefixes, hacq.prefixes],
    by rw [← hacq.freeList, ← hp']; rfl, ?_⟩⟩
  · rw [Tracked, hrefs, ← hp']
    exact ht
  · rw [hothers i (by omega)]
    exact h.fresh i hi
  · rw [hprefixes] at he
    obtain ⟨e₀, he₀, hkey, hparent, htokens, -⟩ := exists_mem_of_map_untick hacq.prefixes he
    rw [hkey, hparent, htokens]
    exact h.keyed e₀ he₀
  · rw [LinksNodup, hprefixes, map_entryLink_of_map_untick hacq.prefixes]
    exact h.links
  · constructor
    · rw [hprefixes]
      exact hticked.nodup
    · rw [hprefixes, ← hp']
      exact hticked.le
  · have hother : p'.otherRefs n id = p.otherRefs n id :=
      Finset.sum_congr rfl fun i hi => by rw [hothers i (Finset.ne_of_mem_erase hi)]
    have hcache : p'.cacheRefs = p.cacheRefs := by
      rw [cacheRefs, hprefixes, map_block_of_map_untick hacq.prefixes, cacheRefs]
    have hold : p.refs n = p.otherRefs n id + p.cacheRefs := by
      rw [refs, tableRefs_eq hid, hfresh]
      simp
    rw [hold, refs, tableRefs_eq hid, hself, hother, hcache, add_assoc]

/-! ### Registering -/

theorem wp_registerBlock (h : p.Counted c n) {id j block : Nat} {tokens span : List Int} (hid : id < n)
    (hblock : (p.seqs id).blockTable[j]? = some block) (hspan : (c.spans tokens)[j]? = some span) :
    wp (registerBlock c (chainHash ((c.spans tokens).take j)) span block)
      (fun h' p' => h' = chainHash ((c.spans tokens).take (j + 1)) ∧ p'.Counted c n ∧
        (∃ added, Registered c id tokens added p p') ∧ p'.CachedAt (c.spans tokens) j ∧
        (∀ e ∈ p'.prefixes, e ∈ p.prefixes ∨ e.2.block = block ∧ HasLink (c.spans tokens) j (entryLink e) ∧
          ¬p.CachedAt (c.spans tokens) j) ∧
        (p.CachedAt (c.spans tokens) j → p' = p))
      (fun _ _ => False) p := by
  have hnext : chainHash ((c.spans tokens).take (j + 1)) =
      hashBlock (chainHash ((c.spans tokens).take j)) span := by
    rw [List.take_add_one, hspan, Option.toList_some, chainHash_snoc]
  have hlen : span.length = c.blockSize := c.length_of_mem_spans (List.mem_of_getElem? hspan)
  simp only [registerBlock, wp_bind, wp_get]
  apply wp_ite
  · intro hnew
    have hnot : ¬p.CachedAt (c.spans tokens) j := by
      rintro ⟨e, he, hparent, htokens⟩
      rw [hspan, Option.some.injEq] at htokens
      obtain ⟨hkey, -⟩ := h.keyed e he
      simp only [entryLink] at hparent htokens
      exact hnew e he ⟨by rw [hkey, hparent, htokens], hparent, by rw [← htokens, hlen], htokens.symm⟩
    obtain ⟨a, ha, ht, hlist⟩ := h.tracked.incref_eq
      (mem_refs_of_mem_table hid (List.mem_of_getElem? hblock))
    simp only [wp_bind]
    apply wp_onAlloc ha
    simp only [wp_modify, wp_pure]
    generalize hadd : (hashBlock (chainHash ((c.spans tokens).take j)) span,
      (⟨chainHash ((c.spans tokens).take j), span, block, p.tick + 1⟩ : PrefixEntry)) = e
    have hlink : entryLink e = (chainHash ((c.spans tokens).take j), span) := by rw [← hadd]; rfl
    have htick : e.2.lastUsed = p.tick + 1 := by rw [← hadd]
    generalize hq : ({ p with
      alloc := a, prefixes := p.prefixes ++ [e], tick := p.tick + 1 } : Pool K) = q
    have hprefixes : q.prefixes = p.prefixes ++ [e] := by rw [← hq]
    have hqtick : q.tick = p.tick + 1 := by rw [← hq]
    have hseqs : q.seqs = p.seqs := by rw [← hq]
    have hrefs : q.refs n = block ::ₘ p.refs n := by
      have hcache : q.cacheRefs = block ::ₘ p.cacheRefs := by
        rw [cacheRefs, hprefixes, ← hadd]
        simp only [List.map_append, List.map_cons, List.map_nil, cacheRefs, Multiset.cons_coe,
          Multiset.coe_eq_coe]
        exact List.perm_append_singleton _ _
      rw [refs, hcache, Multiset.add_cons, ← hq]
      rfl
    have hcounted : q.Counted c n := by
      refine ⟨?_, fun i hi => by rw [hseqs]; exact h.fresh i hi, fun x hx => ?_, ?_, ?_, fun x hx => ?_⟩
      · rw [Tracked, hrefs, ← hq]
        exact ht
      · rw [hprefixes] at hx
        rcases List.mem_append.mp hx with hx | hx
        · exact h.keyed x hx
        · rw [List.mem_singleton.mp hx, ← hadd]
          exact ⟨rfl, hlen⟩
      · rw [LinksNodup, hprefixes, List.map_append, List.map_singleton, List.nodup_append]
        refine ⟨h.links, List.nodup_singleton _, ?_⟩
        rintro x hx y hy rfl
        obtain ⟨e', he', heq⟩ := List.mem_map.mp hx
        rw [List.mem_singleton.mp hy, hlink] at heq
        refine hnot ⟨e', he', ?_⟩
        rw [heq]
        exact ⟨rfl, hspan⟩
      · rw [hprefixes, List.map_append, List.map_singleton, List.nodup_append]
        refine ⟨h.ticked.nodup, List.nodup_singleton _, ?_⟩
        rintro x hx y hy rfl
        obtain ⟨e', he', heq⟩ := List.mem_map.mp hx
        have hle := h.ticked.le e' he'
        rw [List.mem_singleton.mp hy, htick] at heq
        omega
      · rw [hprefixes] at hx
        rw [hqtick]
        rcases List.mem_append.mp hx with hx | hx
        · exact (h.ticked.le x hx).trans (Nat.le_succ _)
        · rw [List.mem_singleton.mp hx, htick]
    have hregistered : Registered c id tokens [e] p q := by
      refine ⟨by rw [← hq], by rw [← hq], hseqs, by rw [← hq], by rw [← hq, hlist], hprefixes, ?_⟩
      intro x hx
      rw [List.mem_singleton.mp hx, ← hadd]
      exact ⟨j, hblock, hspan, rfl, rfl⟩
    refine ⟨hnext.symm, hcounted, ⟨[e], hregistered⟩, ⟨e, ?_, ?_⟩, fun x hx => ?_,
      fun hcached => absurd hcached hnot⟩
    · rw [hprefixes]
      exact List.mem_append_right _ (List.mem_singleton_self e)
    · rw [hlink]
      exact ⟨rfl, hspan⟩
    · apply (List.mem_append.mp hx).imp_right
      rw [List.mem_singleton]
      rintro rfl
      exact ⟨by rw [← hadd], by rw [hlink]; exact ⟨rfl, hspan⟩, hnot⟩
  · intro hold
    push Not at hold
    obtain ⟨e, he, -, hparent, -, htokens⟩ := hold
    refine ⟨hnext.symm, h, ⟨[], Registered.refl c id tokens p⟩, ⟨e, he, ?_, ?_⟩, fun _ hx => .inl hx, fun _ => rfl⟩
    · exact hparent
    · rw [hspan, entryLink, htokens]

/-- `register_prefix` caches the full blocks of the tokens as far as the table goes, each under the first of its
links, and does nothing when they are cached. -/
theorem wp_registerPrefix (h : p.Counted c n) {id : Nat} (hid : id < n) (tokens : List Int) :
    wp (Pool.registerPrefix c id tokens)
      (fun _ p' => p'.Counted c n ∧ (∃ added, Registered c id tokens added p p') ∧
        (∀ j < (c.spans tokens).length, j < (p.seqs id).blockTable.length → p'.CachedAt (c.spans tokens) j) ∧
        (∀ e ∈ p'.prefixes, e ∈ p.prefixes ∨ FirstAt c id tokens p e) ∧
        ((∀ j < (c.spans tokens).length, p.CachedAt (c.spans tokens) j) → p' = p))
      (fun _ _ => False) p := by
  simp only [Pool.registerPrefix, wp_bind, wp_get]
  generalize hpairs : (c.spans tokens).zip (p.seqs id).blockTable = pairs
  have hloop := wp_foldlM (f := fun parent (x : List Int × Nat) => registerBlock (K := K) c parent x.1 x.2)
    (I := fun todo parent q => ∃ j, todo = pairs.drop j ∧ parent = chainHash ((c.spans tokens).take j) ∧
      q.Counted c n ∧ (∃ added, Registered c id tokens added p q) ∧
      (∀ i < j, i < pairs.length → q.CachedAt (c.spans tokens) i) ∧
      (∀ e ∈ q.prefixes, e ∈ p.prefixes ∨ FirstAt c id tokens p e) ∧
      ((∀ i < (c.spans tokens).length, p.CachedAt (c.spans tokens) i) → q = p))
    (E := fun _ _ => False) ?_ pairs 0 p
    ⟨0, by simp, by simp, h, ⟨[], Registered.refl c id tokens p⟩,
      fun i hi => absurd hi (Nat.not_lt_zero i), fun _ he => .inl he, fun _ => rfl⟩
  · apply wp_mono hloop ?_ fun _ _ hf => hf
    rintro _ q ⟨j, hdone, -, hq, hreg, hcached, hfirst, hsame⟩
    refine ⟨hq, hreg, fun i hi hi' => ?_, hfirst, hsame⟩
    have hlt : i < pairs.length := by
      rw [← hpairs, List.length_zip]
      omega
    exact hcached i (hlt.trans_le (List.drop_eq_nil_iff.mp hdone.symm)) hlt
  · rintro ⟨span, block⟩ todo parent q ⟨j, htodo, rfl, hq, ⟨added, hreg⟩, hcached, hfirst, hsame⟩
    have hpair : pairs[j]? = some (span, block) := by
      rw [← List.head?_drop, ← htodo, List.head?_cons]
    have hrest : pairs.drop (j + 1) = todo := by
      rw [← List.tail_drop, ← htodo, List.tail_cons]
    rw [← hpairs, List.getElem?_zip_eq_some] at hpair
    apply wp_mono (hq.wp_registerBlock hid (by rw [hreg.seqs]; exact hpair.2) hpair.1) ?_ fun _ _ hf => hf
    rintro _ q' ⟨rfl, hq', ⟨added', hreg'⟩, hcached', hat, hsame'⟩
    refine ⟨j + 1, hrest.symm, rfl, hq', ⟨added ++ added', hreg.trans hreg'⟩, fun i hi hlt => ?_, fun e he => ?_,
      fun hall => ?_⟩
    · rcases Nat.lt_succ_iff_lt_or_eq.mp hi with hi | rfl
      · obtain ⟨e, he, hlink⟩ := hcached i hi hlt
        refine ⟨e, ?_, hlink⟩
        rw [hreg'.prefixes]
        exact List.mem_append_left _ he
      · exact hcached'
    · obtain hold | ⟨rfl, hlink, hnot⟩ := hat e he
      · exact hfirst e hold
      · refine .inr ⟨j, hpair.2, hlink, fun i hi hlink' => ?_⟩
        have hlt : i < pairs.length := by
          rw [← hpairs, List.length_zip]
          have hj := (List.getElem?_eq_some_iff.mp hpair.1).1
          have hj' := (List.getElem?_eq_some_iff.mp hpair.2).1
          omega
        obtain ⟨e₀, he₀, hlink₀⟩ := hcached i hi hlt
        exact hnot ⟨e₀, he₀, hlink₀.unique hlink' ▸ hlink⟩
    · have hqp := hsame hall
      have hj : j < (c.spans tokens).length := (List.getElem?_eq_some_iff.mp hpair.1).1
      exact (hsame' (hqp ▸ hall j hj)).trans hqp

end Counted

end Pool

end InferenceEngine
