import InferenceEngine.KvCache.Eviction

/-!
# Registered prefixes are found

`register_prefix` and `acquire_shared_prefix` walk the same chain of hashes. So what was registered is found,
as far as two token lists agree, until an entry is dropped; and what a sequence takes over it can give back
without a trace.
-/

namespace InferenceEngine

open Exec

/-- The number of leading elements two lists agree on. -/
def agreement {α : Type} [DecidableEq α] : List α → List α → Nat
  | a :: as, b :: bs => if a = b then agreement as bs + 1 else 0
  | _, _ => 0

section Agreement

variable {α : Type} [DecidableEq α]

theorem take_agreement (as bs : List α) : as.take (agreement as bs) = bs.take (agreement as bs) := by
  induction as generalizing bs with
  | nil => simp [agreement]
  | cons a as ih =>
    cases bs with
    | nil => simp [agreement]
    | cons b bs =>
      rw [agreement]
      split
      · rename_i heq
        rw [List.take_succ_cons, List.take_succ_cons, heq, ih]
      · rfl

theorem agreement_le (as bs : List α) : agreement as bs ≤ as.length := by
  induction as generalizing bs with
  | nil => simp [agreement]
  | cons a as ih =>
    cases bs with
    | nil => simp [agreement]
    | cons b bs =>
      rw [agreement]
      split
      · exact Nat.succ_le_succ (ih bs)
      · exact Nat.zero_le _

end Agreement

/-- Calls that evict and clear nothing. -/
def PoolOp.Sparing {K : Type} (c : PoolSizes) (p : Pool K) : PoolOp K → Prop
  | .reserve id nNew => (finalState (Pool.reserve c id nNew) p).prefixes = p.prefixes
  | .clear => False
  | _ => True

namespace Pool

variable {K : Type} {c : PoolSizes} {n : Nat} {p p' : Pool K}

/-- All full blocks of the tokens are cached. -/
def Caches (c : PoolSizes) (tokens : List Int) (p : Pool K) : Prop :=
  ∀ j < (c.spans tokens).length, p.CachedAt (c.spans tokens) j

theorem Caches.mono {tokens : List Int} (h : p.Caches c tokens)
    (hlinks : p.prefixes.map entryLink ⊆ p'.prefixes.map entryLink) : p'.Caches c tokens := by
  intro j hj
  obtain ⟨e, he, hlink⟩ := h j hj
  obtain ⟨e', he', heq⟩ := List.mem_map.mp (hlinks (List.mem_map_of_mem he))
  exact ⟨e', he', heq ▸ hlink⟩

theorem Counted.links_subset (h : p.Counted c n) {op : PoolOp K} (hop : op.On n) (hs : op.Sparing c p) :
    p.prefixes.map entryLink ⊆ (finalState (op.run c) p).prefixes.map entryLink := by
  cases op with
  | reserve id nNew =>
    have hsame : (finalState (PoolOp.run c (.reserve id nNew)) p).prefixes = p.prefixes := hs
    rw [hsame]
    exact List.Subset.refl _
  | write id layer start k v len => exact List.Subset.refl _
  | commit id len => exact List.Subset.refl _
  | free id =>
    apply wp_finalState (P := fun q : Pool K => p.prefixes.map entryLink ⊆ q.prefixes.map entryLink)
    apply wp_mono (h.wp_free (hop id rfl)) _ fun _ _ hf => hf.elim
    rintro _ q ⟨-, hprefixes, -⟩
    rw [hprefixes]
    exact List.Subset.refl _
  | acquire id tokens =>
    apply wp_finalState (P := fun q : Pool K => p.prefixes.map entryLink ⊆ q.prefixes.map entryLink)
    simp only [PoolOp.run, wp_bind, wp_pure]
    by_cases hfresh : p.seqs id = {}
    · apply wp_mono (h.wp_acquireSharedPrefix (hop id rfl) tokens hfresh) _ fun _ _ hf => hf.elim
      rintro _ q ⟨-, -, hadopted⟩
      rw [map_entryLink_of_map_untick hadopted.prefixes]
      exact List.Subset.refl _
    · exact wp_of_ok (acquireSharedPrefix_of_not_fresh tokens (not_fresh hfresh)) (List.Subset.refl _)
  | register id tokens =>
    apply wp_finalState (P := fun q : Pool K => p.prefixes.map entryLink ⊆ q.prefixes.map entryLink)
    apply wp_mono (h.wp_registerPrefix (hop id rfl) tokens) _ fun _ _ hf => hf.elim
    rintro _ q ⟨-, ⟨added, hreg⟩, -⟩
    rw [hreg.prefixes, List.map_append]
    exact List.subset_append_left _ _
  | clear => exact hs.elim

/-- The lookup of other tokens goes as far as they agree with cached ones. -/
theorem Caches.agreement_le {tokens : List Int} (h : p.Caches c tokens) (hp : p.Keyed c) (other : List Int) :
    agreement (c.spans tokens) (c.spans other) ≤ (matchChain c p.prefixes (c.spans other) 0).length := by
  generalize hm : agreement (c.spans tokens) (c.spans other) = m
  cases m with
  | zero => exact Nat.zero_le _
  | succ b =>
    have htake := take_agreement (c.spans tokens) (c.spans other)
    have hle := InferenceEngine.agreement_le (c.spans tokens) (c.spans other)
    rw [hm] at htake hle
    change b < (matchChain c p.prefixes (c.spans other) (chainHash [])).length
    apply lt_length_matchChain hp
    intro j hj
    obtain ⟨e, he, hparent, hspan⟩ := h j (by omega)
    refine ⟨e, he, ?_, ?_⟩
    · have hj' : (c.spans other).take j = (c.spans tokens).take j := by
        have := congrArg (List.take j) htake
        rw [List.take_take, List.take_take, Nat.min_eq_left (by omega)] at this
        exact this.symm
      simpa [hj'] using hparent
    · have hj' := congrArg (fun l => l[j]?) htake
      simp only [List.getElem?_take_of_lt (Nat.lt_succ_of_le hj)] at hj'
      simpa [← hj'] using hspan

/-- Counts and free list say all there is about an allocator. -/
theorem alloc_eq_of_tracked (h : p.Tracked c n) (h' : p'.Tracked c n) (hrefs : p'.refs n = p.refs n)
    (hfree : p'.alloc.freeList = p.alloc.freeList) : p'.alloc = p.alloc := by
  have hcount : p'.alloc.refCount = p.alloc.refCount := by
    funext b
    rw [h'.refCount_eq, h.refCount_eq, hrefs]
  cases ha : p.alloc
  cases ha' : p'.alloc
  rw [ha, ha'] at hcount hfree
  simp only at hcount hfree
  rw [hcount, hfree]

/-- What acquiring a prefix does to a fresh sequence, and that returning it undoes it. -/
structure Reversible (c : PoolSizes) (id : Nat) (tokens : List Int) (least : Nat) (p : Pool K) (r : Nat)
    (p' : Pool K) : Prop where
  acquired : acquireSharedPrefix c id tokens p = .ok r p'
  least_le : least ≤ r
  dvd : c.blockSize ∣ r
  length : (p'.seqs id).length = r
  table : (p'.seqs id).blockTable.length = r / c.blockSize
  freeList : p'.alloc.freeList = p.alloc.freeList
  refCount : ∀ b, p'.alloc.refCount b = p.alloc.refCount b + (p'.seqs id).blockTable.count b
  undone : wp (free id) (fun _ p'' => p''.alloc = p.alloc) (fun _ _ => False) p'

theorem Counted.reversible (h : p.Counted c n) {id : Nat} (hid : id < n) (hfresh : p.seqs id = {})
    (tokens : List Int) {least : Nat}
    (hleast : least ≤ (matchChain c p.prefixes (c.spans tokens) 0).length * c.blockSize) :
    ∃ r p', Reversible c id tokens least p r p' := by
  obtain ⟨r, p', hrun, h', hr, hadopted⟩ := wp_returns (h.wp_acquireSharedPrefix hid tokens hfresh)
  have hcached : ∀ b ∈ matchChain c p.prefixes (c.spans tokens) 0, b ∈ p.cacheRefs :=
    matchChain_subset (c.spans tokens) 0
  generalize matchChain c p.prefixes (c.spans tokens) 0 = blocks at hr hadopted hleast hcached
  have hcache : p'.cacheRefs = p.cacheRefs := by
    rw [cacheRefs, map_block_of_map_untick hadopted.prefixes, cacheRefs]
  refine ⟨r, p', hrun, by rw [hr]; exact hleast, ⟨blocks.length, by rw [hr, Nat.mul_comm]⟩, by rw [hadopted.self],
    ?_, hadopted.freeList, fun b => ?_, ?_⟩
  · rw [hadopted.self, hr, Nat.mul_div_cancel _ c.blockSize_pos]
  · rw [h'.tracked.refCount_eq, h.tracked.refCount_eq, hadopted.refs, Multiset.count_add, Multiset.coe_count,
      hadopted.self, Nat.add_comm]
  · apply wp_mono (h'.wp_free hid) _ fun _ _ hf => hf
    rintro _ p'' ⟨h'', hprefixes, -, hself, hothers, hfree⟩
    apply alloc_eq_of_tracked h.tracked h''.tracked
    · apply refs_congr
      · intro i
        by_cases hi : i = id
        · rw [hi, hself, hfresh]
        · rw [hothers i hi, hadopted.others i hi]
      · rw [hprefixes, map_block_of_map_untick hadopted.prefixes]
    · refine (hfree fun b hb => Multiset.mem_add.mpr (.inr ?_)).trans hadopted.freeList
      rw [hadopted.self] at hb
      rw [hcache]
      exact hcached b hb

/-- **Registered prefixes are found** as long as nothing is evicted or cleared: a fresh sequence gets at least the
full blocks its tokens share with the registered ones, references are counted one by one, and returning the
sequence restores them. Registering the tokens again does nothing. -/
theorem registered_found [Zero K] {c : PoolConfig} (hp : (machine c).Reachable (fun _ op => op.On n) p) {id : Nat}
    (hid : id < n) {tokens : List Int}
    (hcovers : tokens.length / c.blockSize ≤ (p.seqs id).blockTable.length) {q : Pool K}
    (hq : ({ machine c with start := finalState (registerPrefix c id tokens) p } : Machine _ _).Reachable
      (fun s op => op.On n ∧ op.Sparing c s) q) :
    (∀ fresh < n, q.seqs fresh = {} → ∀ other, ∃ r q',
      Reversible c fresh other (agreement (c.spans tokens) (c.spans other) * c.blockSize) q r q') ∧
    ∀ again < n, registerPrefix c again tokens q = .ok () q := by
  have h := counted_reachable hp
  obtain ⟨hcounted, hcaches⟩ : q.Counted c n ∧ q.Caches c tokens := by
    apply hq.invariant (I := fun q => q.Counted c n ∧ q.Caches c tokens)
    · apply wp_finalState (P := fun q : Pool K => q.Counted c n ∧ q.Caches c tokens)
      apply wp_mono (h.wp_registerPrefix hid tokens) _ fun _ _ hf => hf.elim
      rintro _ p' ⟨h', -, hcached, -⟩
      refine ⟨h', fun j hj => hcached j hj (lt_of_lt_of_le ?_ hcovers)⟩
      rwa [c.length_spans] at hj
    · rintro s op - ⟨hs, hcached⟩ ⟨hop, hsparing⟩
      exact ⟨hs.next hop, hcached.mono (hs.links_subset hop hsparing)⟩
  constructor
  · intro fresh hfresh hempty other
    apply hcounted.reversible hfresh hempty
    exact Nat.mul_le_mul_right _ (hcaches.agreement_le hcounted.keyed other)
  · intro again hagain
    obtain ⟨_, q', hrun, -, -, -, -, hsame⟩ := wp_returns (hcounted.wp_registerPrefix hagain tokens)
    rw [hrun, hsame hcaches]

/-- The registering sequence is gone, and its first block is found. -/
theorem registered_found_tiny :
    let m : Machine (Pool Nat) (PoolOp Nat) := machine tinyPool
    let p := m.next m.start (.reserve 0 4)
    let q := m.next (finalState (registerPrefix tinyPool 0 [5, 6, 7, 8]) p) (.free 0)
    ∃ r q', Reversible tinyPool 1 [5, 6, 9, 9] 2 q r q' := by
  intro m p q
  have hp : m.Reachable (fun _ op => op.On 2) p := .next .start (.of_target (i := 0) rfl (by decide))
  have hspares : ∀ p : Pool Nat, (PoolOp.free 0).Sparing tinyPool p := fun _ => trivial
  have hcovers : [5, 6, 7, (8 : Int)].length / tinyPool.blockSize ≤ (p.seqs 0).blockTable.length := by
    decide +kernel
  have hfound := (registered_found hp Nat.zero_lt_two hcovers
    (.next .start ⟨.of_target (i := 0) rfl (by decide), hspares _⟩)).1 1 (by decide) (by decide +kernel) [5, 6, 9, 9]
  have hleast : agreement (tinyPool.spans [5, 6, 7, 8]) (tinyPool.spans [5, 6, 9, 9]) * tinyPool.blockSize = 2 := by
    decide +kernel
  rwa [hleast] at hfound

end Pool

end InferenceEngine
