import InferenceEngine.KvCache.Matching

/-!
# Cached blocks that can be found

A lookup reaches an entry along the chain of its parents. Registering and acquiring keep the chains whole.
Eviction takes entries one by one, by their last use, and an entry is always used before those behind it: when
it goes first, no lookup reaches them any more.
-/

namespace InferenceEngine

open Exec

theorem PoolSizes.spans_flatten (c : PoolSizes) {chain : List (List Int)}
    (h : ∀ span ∈ chain, span.length = c.blockSize) : c.spans chain.flatten = chain := by
  have hpos := c.blockSize_pos
  induction chain with
  | nil => simp [spans]
  | cons span chain ih =>
    have hlen := h span List.mem_cons_self
    have hrest := ih fun s hs => h s (List.mem_cons_of_mem _ hs)
    rw [List.flatten_cons, spans, List.length_append, hlen, Nat.add_div_left _ hpos, List.range_succ_eq_map,
      List.map_cons, List.map_map]
    have hfirst : sliceRows (span ++ chain.flatten) (0 * c.blockSize) c.blockSize = span := by
      rw [sliceRows, Nat.zero_mul, List.drop_zero, ← hlen, List.take_left]
    have hnext : ∀ b, sliceRows (span ++ chain.flatten) ((b + 1) * c.blockSize) c.blockSize =
        sliceRows chain.flatten (b * c.blockSize) c.blockSize := by
      intro b
      rw [sliceRows, sliceRows, Nat.succ_mul, Nat.add_comm, ← hlen, List.drop_length_add_append]
    rw [hfirst]
    congr 1
    refine (List.map_congr_left fun b _ => hnext b).trans ?_
    exact hrest

/-- No entry that stays has the hash of an evicted entry for its parent. -/
def PoolOp.ChildrenFirst {K : Type} (c : PoolSizes) (p : Pool K) : PoolOp K → Prop
  | .reserve id nNew =>
    let p' := finalState (Pool.reserve c id nNew) p
    ∀ v ∈ p.prefixes, v ∉ p'.prefixes → ∀ e ∈ p'.prefixes, e.2.parent ≠ v.1
  | _ => True

namespace Pool

variable {K : Type} {c : PoolSizes} {n : Nat} {p p' : Pool K}

/-- The hashes of cached chains. -/
inductive Rooted (p : Pool K) : Hash → Prop
  | root : Rooted p 0
  | link {e : Hash × PrefixEntry} : e ∈ p.prefixes → Rooted p e.2.parent → Rooted p e.1

/-- Every entry continues a cached chain. -/
def Closed (p : Pool K) : Prop := ∀ e ∈ p.prefixes, p.Rooted e.2.parent

/-- There are tokens for which a fresh sequence is given the block of the entry. -/
def Findable (c : PoolSizes) (n : Nat) (p : Pool K) (e : Hash × PrefixEntry) : Prop :=
  ∀ id < n, p.seqs id = {} → ∃ tokens r p',
    acquireSharedPrefix c id tokens p = .ok r p' ∧ e.2.block ∈ (p'.seqs id).blockTable

/-! ### Chains -/

/-- An entry continues the cached chain with the hash of its parent. -/
theorem cachedAt_snoc {chain : List (List Int)} (hcached : ∀ j < chain.length, p.CachedAt chain j)
    {e : Hash × PrefixEntry} (he : e ∈ p.prefixes) (hparent : chainHash chain = e.2.parent) :
    HasLink (chain ++ [e.2.tokens]) chain.length (entryLink e) ∧
      ∀ j < chain.length + 1, p.CachedAt (chain ++ [e.2.tokens]) j := by
  have hlast : HasLink (chain ++ [e.2.tokens]) chain.length (entryLink e) := by
    constructor
    · rw [List.take_left, hparent]
      rfl
    · rw [List.getElem?_append_right le_rfl, Nat.sub_self]
      rfl
  refine ⟨hlast, fun j hj => ?_⟩
  rcases Nat.lt_succ_iff_lt_or_eq.mp hj with hj | rfl
  · obtain ⟨e', he', hparent', hspan⟩ := hcached j hj
    refine ⟨e', he', ?_, ?_⟩
    · rw [List.take_append_of_le_length hj.le]
      exact hparent'
    · rw [List.getElem?_append_left hj]
      exact hspan
  · exact ⟨e, he, hlast⟩

namespace Rooted

variable {h : Hash}

/-- Keys and parents matter, and more of them do no harm. -/
theorem mono (hh : p.Rooted h)
    (hmem : ∀ e ∈ p.prefixes, ∃ e' ∈ p'.prefixes, e'.1 = e.1 ∧ e'.2.parent = e.2.parent) : p'.Rooted h := by
  induction hh with
  | root => exact .root
  | link he _ ih =>
    obtain ⟨e', he', hkey, hparent⟩ := hmem _ he
    rw [← hkey]
    exact .link he' (hparent ▸ ih)

/-- What does not continue an entry that goes stays. -/
theorem of_kept (hh : p.Rooted h) (hstays : ∀ v ∈ p.prefixes, v ∉ p'.prefixes → h ≠ v.1)
    (hchildren : ∀ v ∈ p.prefixes, v ∉ p'.prefixes → ∀ e ∈ p'.prefixes, e.2.parent ≠ v.1) : p'.Rooted h := by
  induction hh with
  | root => exact .root
  | @link e he _ ih =>
    have he' : e ∈ p'.prefixes := by
      by_contra hgone
      exact hstays e he hgone rfl
    exact .link he' (ih fun v hv hgone => hchildren v hv hgone e he')

theorem exists_chain (hh : p.Rooted h) (hp : p.Keyed c) :
    ∃ chain, chainHash chain = h ∧ (∀ span ∈ chain, span.length = c.blockSize) ∧
      ∀ j < chain.length, p.CachedAt chain j := by
  induction hh with
  | root => exact ⟨[], rfl, nofun, nofun⟩
  | @link e he _ ih =>
    obtain ⟨chain, hhash, hlen, hcached⟩ := ih
    obtain ⟨hkey, htokens⟩ := hp e he
    refine ⟨chain ++ [e.2.tokens], by rw [chainHash_snoc, hhash, hkey], fun span hspan => ?_, fun j hj => ?_⟩
    · rcases List.mem_append.mp hspan with hspan | hspan
      · exact hlen span hspan
      · rw [List.mem_singleton.mp hspan, htokens]
    · rw [List.length_append, List.length_singleton] at hj
      exact (cachedAt_snoc hcached he hhash).2 j hj

end Rooted

theorem rooted_of_cachedAt (hp : p.Keyed c) {spans : List (List Int)} {j : Nat} (hj : j ≤ spans.length)
    (h : ∀ i < j, p.CachedAt spans i) : p.Rooted (chainHash (spans.take j)) := by
  induction j with
  | zero => exact .root
  | succ j ih =>
    obtain ⟨e, he, hparent, hspan⟩ := h j (Nat.lt_succ_self j)
    have hnext : chainHash (spans.take (j + 1)) = e.1 := by
      rw [List.take_add_one, hspan, Option.toList_some, chainHash_snoc, (hp e he).1]
      simp only [entryLink] at hparent
      rw [hparent]
      rfl
    rw [hnext]
    have hrooted := ih (Nat.le_of_succ_le hj) fun i hi => h i (Nat.lt_succ_of_lt hi)
    simp only [entryLink] at hparent
    rw [← hparent] at hrooted
    exact .link he hrooted

/-- An entry that continues a cached chain is found. -/
theorem Rooted.findable {e : Hash × PrefixEntry} (h : p.Rooted e.2.parent) (hp : p.Counted c n)
    (he : e ∈ p.prefixes) : Findable c n p e := by
  intro id hid hfresh
  obtain ⟨chain, hhash, hlen, hcached⟩ := h.exists_chain hp.keyed
  obtain ⟨hlast, hall⟩ := cachedAt_snoc hcached he hhash
  generalize hspans : chain ++ [e.2.tokens] = spans at hlast hall
  have htokens : c.spans spans.flatten = spans := by
    apply c.spans_flatten
    intro span hspan
    rw [← hspans] at hspan
    rcases List.mem_append.mp hspan with hspan | hspan
    · exact hlen span hspan
    · rw [List.mem_singleton.mp hspan, (hp.keyed e he).2]
  obtain ⟨r, p', hrun, -, -, hadopted⟩ := wp_returns (hp.wp_acquireSharedPrefix hid spans.flatten hfresh)
  refine ⟨spans.flatten, r, p', hrun, ?_⟩
  rw [hadopted.self, htokens]
  change e.2.block ∈ matchChain c p.prefixes spans (chainHash [])
  have hlt : chain.length < (matchChain c p.prefixes spans (chainHash [])).length := by
    apply lt_length_matchChain hp.keyed
    intro j hj
    rw [List.nil_append, List.length_nil, Nat.zero_add]
    exact hall j (Nat.lt_succ_of_le hj)
  -- the lookup finds an entry with the link of `e`, and there is only one
  have hget := List.getElem?_eq_getElem hlt
  obtain ⟨e', he', ⟨hparent, hspan⟩, hblock⟩ := matchChain_getElem? hget
  rw [List.nil_append, List.length_nil, Nat.zero_add] at hparent hspan
  have hlink : entryLink e' = entryLink e := by
    apply Prod.ext
    · rw [hparent, hlast.1]
    · rw [hlast.2, Option.some.injEq] at hspan
      exact hspan.symm
  rw [hp.links.eq_of_link_eq he' he hlink] at hblock
  rw [hblock]
  exact List.getElem_mem hlt

/-! ### Runs -/

/-- Every call that does not evict an entry before its children keeps the cache closed. -/
theorem Closed.next (h : p.Closed) (hp : p.Counted c n) {op : PoolOp K} (hop : op.On n)
    (hfirst : op.ChildrenFirst c p) : (finalState (op.run c) p).Closed := by
  have hsame : ∀ {p' : Pool K}, p'.prefixes.map untick = p.prefixes.map untick → p'.Closed := by
    intro p' huntick e he
    obtain ⟨e₀, he₀, -, hparent, -⟩ := exists_mem_of_map_untick huntick he
    rw [hparent]
    apply (h e₀ he₀).mono
    intro e' he'
    obtain ⟨e'', he'', hkey, hparent', -⟩ := exists_mem_of_map_untick huntick.symm he'
    exact ⟨e'', he'', hkey.symm, hparent'.symm⟩
  cases op with
  | reserve id nNew =>
    have hsub : (finalState (Pool.reserve c id nNew) p).prefixes.Sublist p.prefixes := by
      apply wp_finalState (P := fun q : Pool K => q.prefixes.Sublist p.prefixes)
      apply wp_mono (hp.wp_reserve (hop id rfl) nNew)
      · rintro _ q ⟨-, -, ht⟩
        rw [ht.prefixes]
        exact List.filter_sublist
      · rintro _ q ⟨-, -, -, ht⟩
        rw [ht.prefixes]
        exact List.filter_sublist
    intro e he
    exact (h e (hsub.subset he)).of_kept (fun v hv hgone => hfirst v hv hgone e he) hfirst
  | write id layer start k v len => exact hsame rfl
  | commit id len => exact hsame rfl
  | free id =>
    apply wp_finalState (P := Closed)
    apply wp_mono (hp.wp_free (hop id rfl)) _ fun _ _ hf => hf.elim
    rintro _ q ⟨-, hprefixes, -⟩
    exact hsame (by rw [hprefixes])
  | acquire id tokens =>
    apply wp_finalState (P := Closed)
    simp only [PoolOp.run, wp_bind, wp_pure]
    by_cases hfresh : p.seqs id = {}
    · apply wp_mono (hp.wp_acquireSharedPrefix (hop id rfl) tokens hfresh) _ fun _ _ hf => hf.elim
      rintro _ q ⟨-, -, hadopted⟩
      exact hsame hadopted.prefixes
    · exact wp_of_ok (acquireSharedPrefix_of_not_fresh tokens (not_fresh hfresh)) h
  | register id tokens =>
    apply wp_finalState (P := Closed)
    apply wp_mono (hp.wp_registerPrefix (hop id rfl) tokens) _ fun _ _ hf => hf.elim
    rintro _ q ⟨hq, ⟨added, hreg⟩, hcached, -⟩ e he
    rw [hreg.prefixes] at he
    rcases List.mem_append.mp he with he | he
    · apply (h e he).mono
      intro e' he'
      exact ⟨e', by rw [hreg.prefixes]; exact List.mem_append_left _ he', rfl, rfl⟩
    · obtain ⟨j, hblock, hspan, hparent, -⟩ := hreg.added e he
      have hj := (List.getElem?_eq_some_iff.mp hspan).1
      have hj' := (List.getElem?_eq_some_iff.mp hblock).1
      rw [hparent]
      exact rooted_of_cachedAt hq.keyed hj.le fun i hi => hcached i (hi.trans hj) (hi.trans hj')
  | clear =>
    apply wp_finalState (P := Closed)
    apply wp_mono hp.wp_clearPrefixCache _ fun _ _ hf => hf.elim
    rintro _ q ⟨-, hnil⟩ e he
    rw [hnil] at he
    cases he

/-! ### Blocks that are found, and a block nobody finds -/

def twoBlocks : PoolConfig := ⟨⟨1, 1, 1, 2, Nat.one_pos, Nat.one_pos, Nat.one_pos⟩, by decide⟩

/-- The cached chain of two blocks has lost its first to another sequence. -/
def orphaned : Pool Nat :=
  let m : Machine (Pool Nat) (PoolOp Nat) := machine twoBlocks
  m.next (m.next (m.next (m.next m.start (.reserve 0 2)) (.register 0 [5, 6])) (.free 0)) (.reserve 1 1)

theorem orphaned_reachable : (machine twoBlocks).Reachable (fun _ op => op.On 3) orphaned :=
  .next (.next (.next (.next .start (.of_target (i := 0) rfl (by decide)))
    (.of_target (i := 0) rfl (by decide))) (.of_target (i := 0) rfl (by decide)))
    (.of_target (i := 1) rfl (by decide))

/-- **A cached block can be found** in every reachable state when the chain of its parents is cached; and only an
eviction that takes an entry before one that continues it opens a closed cache. -/
theorem findable_of_rooted [Zero K] {c : PoolConfig} (hp : (machine c).Reachable (fun _ op => op.On n) p) :
    (∀ e ∈ p.prefixes, p.Rooted e.2.parent → Findable c n p e) ∧
    ∀ op : PoolOp K, op.On n → op.ChildrenFirst c p → p.Closed → ((machine c).next p op).Closed := by
  have hcounted := counted_reachable hp
  exact ⟨fun e he h => h.findable hcounted he, fun op hop hfirst h => h.next hcounted hop hfirst⟩

theorem findable_of_rooted_orphaned :
    let p := (machine twoBlocks).next orphaned (.register 1 [7])
    p.prefixes.length = 2 ∧ ∃ e ∈ p.prefixes, e.2.tokens = [7] ∧ Findable twoBlocks 3 p e := by
  intro p
  have hreachable : (machine twoBlocks).Reachable (fun _ op => op.On 3) p :=
    .next orphaned_reachable (.of_target (i := 1) rfl (by decide))
  obtain ⟨e, he, htokens, hparent⟩ : ∃ e ∈ p.prefixes, e.2.tokens = [7] ∧ e.2.parent = 0 := by decide +kernel
  refine ⟨by decide +kernel, e, he, htokens, (findable_of_rooted hreachable).1 e he ?_⟩
  rw [hparent]
  exact .root

/-- Without an entry for a first block no lookup finds anything. -/
theorem matchChain_eq_nil {es : List (Hash × PrefixEntry)} (h : ∀ e ∈ es, e.2.parent ≠ 0) (spans : List (List Int)) :
    matchChain c es spans 0 = [] := by
  cases spans with
  | nil => rfl
  | cons span spans =>
    rw [matchChain]
    cases he : findEntry c (hashBlock 0 span) 0 span es with
    | none => rfl
    | some e =>
      obtain ⟨hmem, -, hparent, -⟩ := findEntry_some he
      exact absurd hparent (h e hmem)

theorem not_findable_orphaned :
    (machine twoBlocks).Reachable (fun _ op => op.On 3) orphaned ∧
      ∃ e ∈ orphaned.prefixes, ¬Findable twoBlocks 3 orphaned e := by
  have hparents : ∀ e ∈ orphaned.prefixes, e.2.parent ≠ 0 := by decide +kernel
  have hnonempty : orphaned.prefixes ≠ [] := by decide +kernel
  obtain ⟨e, rest, hprefixes⟩ := List.exists_cons_of_ne_nil hnonempty
  refine ⟨orphaned_reachable, e, by rw [hprefixes]; exact List.mem_cons_self, fun hfind => ?_⟩
  have hfresh : orphaned.seqs 2 = {} := by decide +kernel
  obtain ⟨tokens, r, p', hrun, hmem⟩ := hfind 2 (by decide) hfresh
  obtain ⟨-, -, hadopted⟩ :=
    wp_ok ((counted_reachable orphaned_reachable).wp_acquireSharedPrefix (by decide) tokens hfresh) hrun
  rw [hadopted.self, matchChain_eq_nil hparents] at hmem
  cases hmem

end Pool

end InferenceEngine
