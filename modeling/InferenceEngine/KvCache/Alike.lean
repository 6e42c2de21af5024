import InferenceEngine.KvCache.Eviction
import InferenceEngine.KvCache.Sharing
import Mathlib.Algebra.Order.BigOperators.Group.Finset
import Mathlib.Combinatorics.Enumerative.DoubleCounting

/-!
# Pools that share alike

Two pools can have the same rows in different blocks. They can hand out the same number of blocks when they share
blocks in the same way: the blocks that back the same rows are paired one to one. One of the pools may have more
blocks at the ends of its tables, which nothing else refers to.
-/

namespace InferenceEngine

open Exec

namespace Pool

variable {K : Type} {c : PoolSizes} {n : Nat} {p p' q q' : Pool K}

/-- The links of the cached blocks. -/
def links (p : Pool K) : List Link := p.prefixes.map entryLink

/-- The cached blocks with their links. -/
def backing (p : Pool K) : List (Link × Nat) := p.prefixes.map fun e => (entryLink e, e.2.block)

/-- The cache has the block under two links, and does not evict it for that. -/
def Doubled (p : Pool K) (b : Nat) : Prop := 2 ≤ p.cacheRefs.count b

instance (p : Pool K) (b : Nat) : Decidable (p.Doubled b) := inferInstanceAs (Decidable (2 ≤ _))

def doubles (c : PoolSizes) (p : Pool K) : Finset Nat := (Finset.range c.numBlocks).filter p.Doubled

/-- The blocks at the first `m i` places of every table `i`. -/
def placed (n : Nat) (m : Nat → Nat) (p : Pool K) : Finset Nat :=
  (Finset.range n).biUnion fun i => ((p.seqs i).blockTable.take (m i)).toFinset

/-- The blocks behind them. -/
def spare (n : Nat) (m : Nat → Nat) (p : Pool K) : Finset Nat :=
  (Finset.range n).biUnion fun i => ((p.seqs i).blockTable.drop (m i)).toFinset

theorem mem_links {x : Link} : x ∈ p.links ↔ ∃ b, (x, b) ∈ p.backing := by
  simp only [links, backing, List.mem_map, Prod.mk.injEq]
  constructor
  · rintro ⟨e, he, rfl⟩
    exact ⟨e.2.block, e, he, rfl, rfl⟩
  · rintro ⟨b, e, he, rfl, rfl⟩
    exact ⟨e, he, rfl⟩

theorem LinksNodup.backing_unique (h : p.LinksNodup) {x : Link} {b b' : Nat} (hb : (x, b) ∈ p.backing)
    (hb' : (x, b') ∈ p.backing) : b = b' := by
  obtain ⟨e, he, heq⟩ := List.mem_map.mp hb
  obtain ⟨e', he', heq'⟩ := List.mem_map.mp hb'
  rw [Prod.mk.injEq] at heq heq'
  rw [← heq.2, ← heq'.2, h.eq_of_link_eq he he' (heq.1.trans heq'.1.symm)]

theorem mem_cacheRefs_of_backing {x : Link} {b : Nat} (h : (x, b) ∈ p.backing) : b ∈ p.cacheRefs := by
  obtain ⟨e, he, heq⟩ := List.mem_map.mp h
  rw [Prod.mk.injEq] at heq
  rw [← heq.2]
  exact mem_cacheRefs he

theorem backing_congr (h : q.prefixes.map untick = p.prefixes.map untick) : q.backing = p.backing := by
  have hmap := congrArg (List.map fun e : Hash × PrefixEntry => (entryLink e, e.2.block)) h
  rw [List.map_map, List.map_map] at hmap
  exact hmap

theorem doubled_congr (h : q.backing = p.backing) (b : Nat) : q.Doubled b ↔ p.Doubled b := by
  have hsnd : ∀ r : Pool K, r.cacheRefs = (r.backing.map Prod.snd : List Nat) := by
    intro r
    rw [backing, List.map_map]
    rfl
  rw [Doubled, Doubled, hsnd, hsnd, h]

/-! ### The blocks that can be handed out -/

theorem mem_tableRefs_iff {b : Nat} : b ∈ p.tableRefs n ↔ ∃ i < n, b ∈ (p.seqs i).blockTable := by
  rw [tableRefs, Multiset.mem_sum]
  exact exists_congr fun i => by rw [Finset.mem_range, Multiset.mem_coe]

/-- The supply are the blocks of no table that the cache has once at most. -/
theorem mem_supply (h : p.Counted c n) {b : Nat} :
    b ∈ p.supply ↔ b < c.numBlocks ∧ b ∉ p.tableRefs n ∧ ¬p.Doubled b := by
  have hcount : p.alloc.refCount b = (p.tableRefs n).count b + p.cacheRefs.count b := by
    rw [h.tracked.refCount_eq, refs, Multiset.count_add]
  rw [Doubled, not_le, Nat.lt_succ_iff]
  constructor
  · intro hb
    have htable : b ∉ p.tableRefs n := by
      rw [mem_tableRefs_iff]
      rintro ⟨i, -, hi⟩
      exact h.not_mem_table_of_mem_supply hb i hi
    rw [Multiset.count_eq_zero_of_notMem htable, Nat.zero_add] at hcount
    obtain hfree | hcached := List.mem_append.mp hb
    · obtain ⟨hlt, hrefs⟩ := (h.tracked.mem_freeList b).mp hfree
      rw [h.tracked.refCount_eq, Multiset.count_eq_zero_of_notMem hrefs] at hcount
      exact ⟨hlt, htable, by omega⟩
    · obtain ⟨e, he, rfl⟩ := List.mem_map.mp hcached
      obtain ⟨hmem, hone⟩ := List.mem_filter.mp (Ranking.mem_ranking.mp he)
      have hone := of_decide_eq_true hone
      exact ⟨h.tracked.lt _ (mem_refs_of_mem_prefixes hmem), htable, by omega⟩
  · rintro ⟨hlt, htable, hone⟩
    rw [Multiset.count_eq_zero_of_notMem htable, Nat.zero_add] at hcount
    rw [supply, List.mem_append]
    by_cases hcache : b ∈ p.cacheRefs
    · right
      obtain ⟨e, he, rfl⟩ := List.mem_map.mp (Multiset.mem_coe.mp hcache)
      have hpos := Multiset.count_pos.mpr hcache
      exact List.mem_map_of_mem (Ranking.mem_ranking.mpr (List.mem_filter.mpr ⟨he, decide_eq_true (by omega)⟩))
    · left
      exact (h.tracked.mem_freeList b).mpr ⟨hlt, fun hb => (Multiset.mem_add.mp hb).elim htable hcache⟩

theorem count_cacheRefs (p : Pool K) (b : Nat) : p.cacheRefs.count b = p.prefixes.countP fun e => e.2.block = b := by
  rw [cacheRefs, Multiset.coe_count, List.count, List.countP_map]
  exact List.countP_congr fun e _ => by simp

/-- A doubled block is never evicted. -/
theorem Taken.doubled {id k : Nat} (h : Taken id k p p') (hc : p.Counted c n) (b : Nat) :
    p'.Doubled b ↔ p.Doubled b := by
  rw [Doubled, Doubled, count_cacheRefs, count_cacheRefs, h.prefixes]
  constructor
  · exact fun hb => hb.trans (List.filter_sublist.countP_le)
  · intro hb
    rw [List.countP_filter]
    apply hb.trans_eq
    apply List.countP_congr
    intro e he
    rw [Bool.and_eq_true, decide_eq_true_iff, decide_eq_true_iff, iff_self_and]
    rintro rfl hmem
    have hone := of_decide_eq_true (List.mem_filter.mp (Ranking.mem_ranking.mp (List.mem_of_mem_take hmem))).2
    rw [hc.tracked.refCount_eq, refs, Multiset.count_add, count_cacheRefs] at hone
    omega

theorem doubled_lt (h : p.Counted c n) {b : Nat} (hb : p.Doubled b) : b < c.numBlocks := by
  apply h.tracked.lt
  exact Multiset.mem_add.mpr (.inr (Multiset.count_pos.mp (Nat.zero_lt_two.trans_le hb)))

theorem mem_doubles (h : p.Counted c n) {b : Nat} : b ∈ p.doubles c ↔ p.Doubled b := by
  rw [doubles, Finset.mem_filter, Finset.mem_range]
  exact and_iff_right_of_imp (doubled_lt h)

theorem mem_placed {m : Nat → Nat} {b : Nat} :
    b ∈ p.placed n m ↔ ∃ i < n, ∃ k < m i, (p.seqs i).blockTable[k]? = some b := by
  simp only [placed, Finset.mem_biUnion, Finset.mem_range, List.mem_toFinset]
  apply exists_congr
  intro i
  apply and_congr_right
  intro _
  rw [List.mem_iff_getElem?]
  constructor
  · rintro ⟨k, hk⟩
    rw [List.getElem?_take] at hk
    split at hk
    · exact ⟨k, ‹_›, hk⟩
    · cases hk
  · rintro ⟨k, hk, hb⟩
    exact ⟨k, by rw [List.getElem?_take_of_lt hk, hb]⟩

/-- A block behind the committed rows is at one place, and not in the cache. -/
structure Sole (n : Nat) (p : Pool K) (i k b : Nat) : Prop where
  lt : i < n
  get : (p.seqs i).blockTable[k]? = some b
  uncached : b ∉ p.cacheRefs
  only : ∀ i' < n, ∀ k', (p.seqs i').blockTable[k']? = some b → i' = i ∧ k' = k

theorem Wf.sole (h : p.Wf c n) {i k b : Nat} (hi : i < n) (hk : (p.seqs i).blockTable[k]? = some b)
    (hlen : (p.seqs i).length ≤ k * c.blockSize) : Sole n p i k b := by
  obtain ⟨hcache, hplace⟩ := h.owned hi hk (hlen.trans_lt (Nat.mul_lt_mul_of_pos_right k.lt_succ_self c.blockSize_pos))
  exact ⟨hi, hk, hcache, hplace⟩

theorem Sole.not_doubled {i k b : Nat} (h : Sole n p i k b) : ¬p.Doubled b := by
  rw [Doubled, Multiset.count_eq_zero_of_notMem h.uncached]
  omega

theorem Wf.mem_spare (h : p.Wf c n) {m : Nat → Nat} (hm : ∀ i, (p.seqs i).length ≤ m i * c.blockSize) {b : Nat} :
    b ∈ p.spare n m ↔ ∃ i k, m i ≤ k ∧ Sole n p i k b := by
  simp only [spare, Finset.mem_biUnion, Finset.mem_range, List.mem_toFinset]
  constructor
  · rintro ⟨i, hi, hb⟩
    obtain ⟨k, hk⟩ := List.mem_iff_getElem?.mp hb
    rw [List.getElem?_drop] at hk
    have hle := (hm i).trans (Nat.mul_le_mul_right _ (Nat.le_add_right _ k))
    exact ⟨i, m i + k, Nat.le_add_right _ _, h.sole hi hk hle⟩
  · rintro ⟨i, k, hk, hsole⟩
    refine ⟨i, hsole.lt, List.mem_iff_getElem?.mpr ⟨k - m i, ?_⟩⟩
    rw [List.getElem?_drop, Nat.add_sub_cancel' hk, hsole.get]

theorem Wf.card_spare (h : p.Wf c n) {m : Nat → Nat} (hm : ∀ i, (p.seqs i).length ≤ m i * c.blockSize) :
    (p.spare n m).card = ∑ i ∈ Finset.range n, ((p.seqs i).blockTable.length - m i) := by
  have hsole : ∀ i < n, ∀ k b, ((p.seqs i).blockTable.drop (m i))[k]? = some b → Sole n p i (m i + k) b := by
    intro i hi k b hk
    rw [List.getElem?_drop] at hk
    exact h.sole hi hk ((hm i).trans (Nat.mul_le_mul_right _ (Nat.le_add_right _ _)))
  rw [spare, Finset.card_biUnion]
  · apply Finset.sum_congr rfl
    intro i hi
    rw [List.toFinset_card_of_nodup, List.length_drop]
    apply List.nodup_iff_injective_getElem.mpr
    intro k k' heq
    have hk := hsole i (Finset.mem_range.mp hi) k _ (List.getElem?_eq_getElem k.2)
    have hk' := hsole i (Finset.mem_range.mp hi) k' _ (List.getElem?_eq_getElem k'.2)
    simp only at heq
    rw [← heq] at hk'
    exact Fin.ext (Nat.add_left_cancel (hk'.only i hk.lt _ hk.get).2)
  · intro i hi j hj hne
    rw [Function.onFun, Finset.disjoint_left]
    intro b hb hb'
    obtain ⟨k, hk⟩ := List.mem_iff_getElem?.mp (List.mem_toFinset.mp hb)
    obtain ⟨k', hk'⟩ := List.mem_iff_getElem?.mp (List.mem_toFinset.mp hb')
    have hsole' := hsole j (Finset.mem_range.mp hj) k' b hk'
    have hget := (hsole i (Finset.mem_range.mp hi) k b hk).get
    exact hne (hsole'.only i (Finset.mem_range.mp hi) _ hget).1

/-- Every block can be handed out, is at the end of a table, or is one that is placed or doubled. -/
theorem Counted.length_supply_add (h : p.Counted c n) (hw : p.Wf c n) {m : Nat → Nat}
    (hm : ∀ i, (p.seqs i).length ≤ m i * c.blockSize) :
    p.supply.length + ∑ i ∈ Finset.range n, ((p.seqs i).blockTable.length - m i) +
      (p.placed n m ∪ p.doubles c).card = c.numBlocks := by
  have htable : ∀ b, b ∈ p.tableRefs n ↔ b ∈ p.placed n m ∨ b ∈ p.spare n m := by
    intro b
    rw [mem_tableRefs_iff, mem_placed, hw.mem_spare hm]
    constructor
    · rintro ⟨i, hi, hb⟩
      obtain ⟨k, hk⟩ := List.mem_iff_getElem?.mp hb
      obtain hlt | hle := Nat.lt_or_ge k (m i)
      · exact .inl ⟨i, hi, k, hlt, hk⟩
      · exact .inr ⟨i, k, hle, hw.sole hi hk ((hm i).trans (Nat.mul_le_mul_right _ hle))⟩
    · rintro (⟨i, hi, k, -, hk⟩ | ⟨i, k, -, hsole⟩)
      · exact ⟨i, hi, List.mem_of_getElem? hk⟩
      · exact ⟨i, hsole.lt, List.mem_of_getElem? hsole.get⟩
  have hsupply : p.supply.toFinset = Finset.range c.numBlocks \ (p.spare n m ∪ (p.placed n m ∪ p.doubles c)) := by
    ext b
    rw [List.mem_toFinset, mem_supply h, htable]
    simp only [Finset.mem_sdiff, Finset.mem_range, Finset.mem_union, mem_doubles h]
    tauto
  have hsub : p.spare n m ∪ (p.placed n m ∪ p.doubles c) ⊆ Finset.range c.numBlocks := by
    intro b hb
    rw [Finset.mem_range]
    rw [← Finset.union_assoc, Finset.mem_union, Finset.mem_union, or_comm (a := b ∈ p.spare n m), ← htable] at hb
    obtain hb | hb := hb
    · exact h.tracked.lt b (Multiset.mem_add.mpr (.inl hb))
    · exact doubled_lt h ((mem_doubles h).mp hb)
  have hdisjoint : Disjoint (p.spare n m) (p.placed n m ∪ p.doubles c) := by
    rw [Finset.disjoint_left]
    intro b hb hb'
    obtain ⟨i, k, hk, hsole⟩ := (hw.mem_spare hm).mp hb
    obtain hb' | hb' := Finset.mem_union.mp hb'
    · obtain ⟨i', hi', k', hk', hget⟩ := mem_placed.mp hb'
      obtain ⟨rfl, rfl⟩ := hsole.only i' hi' k' hget
      omega
    · exact hsole.not_doubled ((mem_doubles h).mp hb')
  have hcard := Finset.card_sdiff_add_card_eq_card hsub
  rw [← hsupply, List.toFinset_card_of_nodup h.supply_nodup, Finset.card_union_of_disjoint hdisjoint,
    hw.card_spare hm, Finset.card_range] at hcard
  omega

/-! ### Pairs of blocks -/

/-- Blocks at one place of a table, or behind one of the entries `kept`. -/
inductive Paired (n : Nat) (kept : List Link) (p p' : Pool K) : Nat → Nat → Prop
  | row {i k b b' : Nat} (hi : i < n) (hb : (p.seqs i).blockTable[k]? = some b)
      (hb' : (p'.seqs i).blockTable[k]? = some b') : Paired n kept p p' b b'
  | entry {x : Link} {b b' : Nat} (hx : x ∈ kept) (hb : (x, b) ∈ p.backing) (hb' : (x, b') ∈ p'.backing) :
      Paired n kept p p' b b'

/-- The two pools use their blocks in the same way. -/
structure Alike (c : PoolSizes) (n : Nat) (kept : List Link) (p p' : Pool K) : Prop where
  paired : ∀ {b b₂ b' b₂'}, Paired n kept p p' b b' → Paired n kept p p' b₂ b₂' → (b = b₂ ↔ b' = b₂')
  doubled : ∀ {b b'}, Paired n kept p p' b b' → (p'.Doubled b' ↔ p.Doubled b)
  card_doubles : (p'.doubles c).card = (p.doubles c).card
  cached : ∀ x ∈ kept, x ∈ p.links ∧ x ∈ p'.links

theorem Paired.eq (h : p.LinksNodup) {kept : List Link} {b b' : Nat} (hpair : Paired n kept p p b b') : b = b' := by
  cases hpair with
  | row hi hb hb' => exact Option.some.inj (hb.symm.trans hb')
  | entry hx hb hb' => exact h.backing_unique hb hb'

theorem Alike.refl (c : PoolSizes) (n : Nat) (h : p.LinksNodup) : Alike c n p.links p p where
  paired hpair hpair₂ := by rw [hpair.eq h, hpair₂.eq h]
  doubled hpair := by rw [hpair.eq h]
  card_doubles := rfl
  cached _ hx := ⟨hx, hx⟩

theorem Sole.paired_eq {kept : List Link} {i k b b' b₂' : Nat} (h : Sole n p i k b)
    (hget : (p'.seqs i).blockTable[k]? = some b') (hpair : Paired n kept p p' b b₂') : b₂' = b' := by
  cases hpair with
  | row hi hb hb' =>
    obtain ⟨rfl, rfl⟩ := h.only _ hi _ hb
    exact Option.some.inj (hb'.symm.trans hget)
  | entry hx hb hb' => exact absurd (mem_cacheRefs_of_backing hb) h.uncached

theorem Sole.eq_paired {kept : List Link} {i k b b' b₂ : Nat} (h : Sole n p' i k b')
    (hget : (p.seqs i).blockTable[k]? = some b) (hpair : Paired n kept p p' b₂ b') : b₂ = b := by
  cases hpair with
  | row hi hb hb' =>
    obtain ⟨rfl, rfl⟩ := h.only _ hi _ hb'
    exact Option.some.inj (hb.symm.trans hget)
  | entry hx hb hb' => exact absurd (mem_cacheRefs_of_backing hb') h.uncached

/-- A step of both pools pairs blocks that were paired before, and new ones at the ends of tables. -/
theorem Alike.step {kept kept' : List Link} (h : Alike c n kept p p')
    (hpairs : ∀ {b b'}, Paired n kept' q q' b b' →
      Paired n kept p p' b b' ∨ ∃ i k, Sole n q i k b ∧ Sole n q' i k b')
    (hdoubled : ∀ b, q.Doubled b ↔ p.Doubled b) (hdoubled' : ∀ b, q'.Doubled b ↔ p'.Doubled b)
    (hcached : ∀ x ∈ kept', x ∈ q.links ∧ x ∈ q'.links) : Alike c n kept' q q' where
  paired {b b₂ b' b₂'} hpair hpair₂ := by
    obtain hold | ⟨i, k, hsole, hsole'⟩ := hpairs hpair
    · obtain hold₂ | ⟨i, k, hsole, hsole'⟩ := hpairs hpair₂
      · exact h.paired hold hold₂
      · constructor
        · rintro rfl
          exact hsole.paired_eq hsole'.get hpair
        · rintro rfl
          exact hsole'.eq_paired hsole.get hpair
    · constructor
      · rintro rfl
        exact (hsole.paired_eq hsole'.get hpair₂).symm
      · rintro rfl
        exact (hsole'.eq_paired hsole.get hpair₂).symm
  doubled {b b'} hpair := by
    obtain hold | ⟨i, k, hsole, hsole'⟩ := hpairs hpair
    · rw [hdoubled, hdoubled', h.doubled hold]
    · exact iff_of_false hsole'.not_doubled hsole.not_doubled
  card_doubles := by
    rw [doubles, doubles, Finset.filter_congr fun b _ => hdoubled b, Finset.filter_congr fun b _ => hdoubled' b]
    exact h.card_doubles
  cached := hcached

/-- With empty caches nothing is doubled. -/
theorem Alike.clear {kept : List Link} (h : Alike c n kept p p') (hseqs : ∀ i, q.seqs i = p.seqs i)
    (hseqs' : ∀ i, q'.seqs i = p'.seqs i) (hempty : q.prefixes = []) (hempty' : q'.prefixes = []) :
    Alike c n [] q q' := by
  have hnone : ∀ {r : Pool K}, r.prefixes = [] → ∀ b, ¬r.Doubled b := by
    intro r hr b
    rw [Doubled, cacheRefs, hr]
    simp
  have hpairs : ∀ {b b'}, Paired n [] q q' b b' → Paired n kept p p' b b' := by
    intro b b' hpair
    cases hpair with
    | row hi hb hb' => exact .row hi (by rw [← hseqs, hb]) (by rw [← hseqs', hb'])
    | entry hx hb hb' => cases hx
  have hcard : ∀ {r : Pool K}, r.prefixes = [] → r.doubles c = ∅ := fun hr =>
    Finset.filter_false_of_mem fun b _ => hnone hr b
  refine ⟨fun hpair hpair₂ => h.paired (hpairs hpair) (hpairs hpair₂),
    fun _ => iff_of_false (hnone hempty' _) (hnone hempty _), by rw [hcard hempty, hcard hempty'], fun x hx => ?_⟩
  cases hx

/-! ### The same supply -/

theorem card_le_of_paired {kept : List Link} {s t : Finset Nat}
    (hunique : ∀ {b b₂ b' b₂'}, Paired n kept p p' b b' → Paired n kept p p' b₂ b₂' → (b = b₂ ↔ b' = b₂'))
    (h : ∀ b ∈ s, ∃ b' ∈ t, Paired n kept p p' b b') : s.card ≤ t.card := by
  apply Finset.card_le_card_of_forall_subsingleton (Paired n kept p p') h
  rintro b' - b ⟨-, hpair⟩ b₂ ⟨-, hpair₂⟩
  exact (hunique hpair hpair₂).mpr rfl

theorem card_ge_of_paired {kept : List Link} {s t : Finset Nat}
    (hunique : ∀ {b b₂ b' b₂'}, Paired n kept p p' b b' → Paired n kept p p' b₂ b₂' → (b = b₂ ↔ b' = b₂'))
    (h : ∀ b' ∈ t, ∃ b ∈ s, Paired n kept p p' b b') : t.card ≤ s.card := by
  apply Finset.card_le_card_of_forall_subsingleton' (Paired n kept p p') h
  rintro b - b' ⟨-, hpair⟩ b₂' ⟨-, hpair₂⟩
  exact (hunique hpair hpair₂).mp rfl

/-- What the second pool lacks in supply are the blocks it has at the ends of its tables. -/
theorem Alike.supply {kept : List Link} (h : Alike c n kept p p') (hw : p.Wf c n) (hc : p.Counted c n)
    (hw' : p'.Wf c n) (hc' : p'.Counted c n) (hlength : ∀ i, (p'.seqs i).length = (p.seqs i).length)
    (htable : ∀ i, (p.seqs i).blockTable.length ≤ (p'.seqs i).blockTable.length) :
    p'.supply.length + ∑ i ∈ Finset.range n, (p'.seqs i).blockTable.length =
      p.supply.length + ∑ i ∈ Finset.range n, (p.seqs i).blockTable.length := by
  have hm := fun i => hw.length_le i
  have hcount := hc.length_supply_add hw hm
  have hcount' := hc'.length_supply_add hw' fun i => (hlength i).trans_le (hm i)
  -- the placed blocks are paired with one another
  have hcard : (p'.placed n (fun i => (p.seqs i).blockTable.length) \ p'.doubles c).card =
      (p.placed n (fun i => (p.seqs i).blockTable.length) \ p.doubles c).card := by
    apply le_antisymm
    · apply card_ge_of_paired h.paired
      intro b' hb'
      rw [Finset.mem_sdiff, mem_placed, mem_doubles hc'] at hb'
      obtain ⟨⟨i, hi, k, hk, hget'⟩, hdoubled⟩ := hb'
      have hget := List.getElem?_eq_getElem hk
      have hpair : Paired n kept p p' _ b' := .row hi hget hget'
      refine ⟨_, ?_, hpair⟩
      rw [Finset.mem_sdiff, mem_placed, mem_doubles hc, ← h.doubled hpair]
      exact ⟨⟨i, hi, k, hk, hget⟩, hdoubled⟩
    · apply card_le_of_paired h.paired
      intro b hb
      rw [Finset.mem_sdiff, mem_placed, mem_doubles hc] at hb
      obtain ⟨⟨i, hi, k, hk, hget⟩, hdoubled⟩ := hb
      have hget' := List.getElem?_eq_getElem (hk.trans_le (htable i))
      have hpair : Paired n kept p p' b _ := .row hi hget hget'
      refine ⟨_, ?_, hpair⟩
      rw [Finset.mem_sdiff, mem_placed, mem_doubles hc', h.doubled hpair]
      exact ⟨⟨i, hi, k, hk, hget'⟩, hdoubled⟩
  have hunion := Finset.card_sdiff_add_card (p.placed n fun i => (p.seqs i).blockTable.length) (p.doubles c)
  have hunion' := Finset.card_sdiff_add_card (p'.placed n fun i => (p.seqs i).blockTable.length) (p'.doubles c)
  have hself : ∑ i ∈ Finset.range n, ((p.seqs i).blockTable.length - (p.seqs i).blockTable.length) = 0 := by simp
  have hsum : ∑ i ∈ Finset.range n, ((p'.seqs i).blockTable.length - (p.seqs i).blockTable.length) +
      ∑ i ∈ Finset.range n, (p.seqs i).blockTable.length = ∑ i ∈ Finset.range n, (p'.seqs i).blockTable.length := by
    rw [← Finset.sum_add_distrib]
    exact Finset.sum_congr rfl fun i _ => Nat.sub_add_cancel (htable i)
  have hdoubles := h.card_doubles
  omega

/-! ### Steps of both pools -/

instance : LawfulBEq Link := inferInstance

/-- The entries that one call, or none, has put into both caches: what is left of `kept`, and the new ones. -/
def keptAfter (kept : List Link) (p p' q q' : Pool K) : List Link :=
  q.links.filter fun x => (x ∈ kept ∨ x ∉ p.links ∧ x ∉ p'.links) ∧ x ∈ q'.links

theorem mem_keptAfter {kept : List Link} {x : Link} : x ∈ keptAfter kept p p' q q' ↔
    x ∈ q.links ∧ (x ∈ kept ∨ x ∉ p.links ∧ x ∉ p'.links) ∧ x ∈ q'.links := by
  rw [keptAfter, List.mem_filter, decide_eq_true_iff]

/-- The pool has grown at the ends of its tables, and given up cached blocks. -/
structure Ahead (c : PoolSizes) (n : Nat) (p q : Pool K) : Prop where
  table : ∀ i, ∃ new, (q.seqs i).blockTable = (p.seqs i).blockTable ++ new
  backing : q.backing ⊆ p.backing
  doubled : ∀ b, q.Doubled b ↔ p.Doubled b
  sole : ∀ {i k b}, i < n → (q.seqs i).blockTable[k]? = some b → (p.seqs i).length ≤ k * c.blockSize → Sole n q i k b

theorem Wf.ahead (h : p.Wf c n) : Ahead c n p p :=
  ⟨fun _ => ⟨[], (List.append_nil _).symm⟩, List.Subset.refl _, fun _ => Iff.rfl, fun hi hk hlen => h.sole hi hk hlen⟩

/-- Only tables and cache matter. -/
theorem Ahead.congr (h : Ahead c n p q) (htable : ∀ i, (q'.seqs i).blockTable = (q.seqs i).blockTable)
    (hprefixes : q'.prefixes = q.prefixes) : Ahead c n p q' where
  table i := by
    rw [htable]
    exact h.table i
  backing := by
    rw [Pool.backing, hprefixes]
    exact h.backing
  doubled b := by
    rw [Doubled, cacheRefs, hprefixes]
    exact h.doubled b
  sole {i k b} hi hk hlen := by
    rw [htable] at hk
    obtain ⟨-, -, hcache, honly⟩ := h.sole hi hk hlen
    refine ⟨hi, by rw [htable, hk], by rwa [cacheRefs, hprefixes], fun i' hi' k' hk' => honly i' hi' k' ?_⟩
    rw [← htable, hk']

theorem Alike.ahead {kept : List Link} (h : Alike c n kept p p') (hw : p.Wf c n)
    (hlength : ∀ i, (p'.seqs i).length = (p.seqs i).length)
    (htable : ∀ i, (p.seqs i).blockTable.length ≤ (p'.seqs i).blockTable.length) (hq : Ahead c n p q)
    (hq' : Ahead c n p' q') : Alike c n (keptAfter kept p p' q q') q q' := by
  apply h.step _ hq.doubled hq'.doubled
  · intro x hx
    obtain ⟨hx, -, hx'⟩ := mem_keptAfter.mp hx
    exact ⟨hx, hx'⟩
  · intro b b' hpair
    cases hpair with
    | @row i k _ _ hi hb hb' =>
      obtain hk | hk := Nat.lt_or_ge k (p.seqs i).blockTable.length
      · left
        obtain ⟨new, hnew⟩ := hq.table i
        obtain ⟨new', hnew'⟩ := hq'.table i
        rw [hnew, List.getElem?_append_left hk] at hb
        rw [hnew', List.getElem?_append_left (hk.trans_le (htable i))] at hb'
        exact .row hi hb hb'
      · have hle := (hw.length_le i).trans (Nat.mul_le_mul_right c.blockSize hk)
        exact .inr ⟨i, k, hq.sole hi hb hle, hq'.sole hi hb' ((hlength i).trans_le hle)⟩
    | entry hx hb hb' =>
      obtain ⟨-, hkept, -⟩ := mem_keptAfter.mp hx
      have hold := hkept.resolve_right fun hnew => hnew.1 (mem_links.mpr ⟨_, hq.backing hb⟩)
      exact .inl (.entry hold (hq.backing hb) (hq'.backing hb'))

theorem Alike.freed {kept : List Link} (h : Alike c n kept p p') {id : Nat} (hf : Freed id p q)
    (hf' : Freed id p' q') : Alike c n (keptAfter kept p p' q q') q q' := by
  have hback : q.backing = p.backing := backing_congr (by rw [hf.prefixes])
  have hback' : q'.backing = p'.backing := backing_congr (by rw [hf'.prefixes])
  apply h.step _ (doubled_congr hback) (doubled_congr hback')
  · intro x hx
    obtain ⟨hx, -, hx'⟩ := mem_keptAfter.mp hx
    exact ⟨hx, hx'⟩
  · intro b b' hpair
    left
    cases hpair with
    | @row i k _ _ hi hb hb' =>
      have hne : i ≠ id := by
        rintro rfl
        rw [hf.self] at hb
        cases hb
      rw [hf.others i hne] at hb
      rw [hf'.others i hne] at hb'
      exact .row hi hb hb'
    | entry hx hb hb' =>
      rw [hback] at hb
      rw [hback'] at hb'
      obtain ⟨-, hkept, -⟩ := mem_keptAfter.mp hx
      exact .entry (hkept.resolve_right fun hnew => hnew.1 (mem_links.mpr ⟨_, hb⟩)) hb hb'

/-- Lookups that reach entries in `kept` only hand out paired blocks. -/
theorem entry_of_matchChain {kept : List Link} {spans : List (List Int)}
    (hkept : ∀ k < (matchChain c p.prefixes spans 0).length, ∀ x, HasLink spans k x → x ∈ kept) {k b b' : Nat}
    (hb : (matchChain c p.prefixes spans 0)[k]? = some b) (hb' : (matchChain c p'.prefixes spans 0)[k]? = some b') :
    ∃ x ∈ kept, (x, b) ∈ p.backing ∧ (x, b') ∈ p'.backing := by
  have hk := (List.getElem?_eq_some_iff.mp hb).1
  rw [← chainHash_nil] at hb hb'
  obtain ⟨e, he, hlink, rfl⟩ := matchChain_getElem? hb
  obtain ⟨e', he', hlink', rfl⟩ := matchChain_getElem? hb'
  rw [List.nil_append, List.length_nil, Nat.zero_add] at hlink hlink'
  refine ⟨entryLink e, hkept k hk _ hlink, List.mem_map_of_mem he, ?_⟩
  rw [hlink.unique hlink']
  exact List.mem_map_of_mem he'

theorem Alike.acquired {kept : List Link} (h : Alike c n kept p p') {id : Nat} {spans : List (List Int)}
    (hkept : ∀ k < (matchChain c p.prefixes spans 0).length, ∀ x, HasLink spans k x → x ∈ kept)
    (hfresh : p.seqs id = {}) (hfresh' : p'.seqs id = {})
    (ha : Acquired id (matchChain c p.prefixes spans 0) p q)
    (ha' : Acquired id (matchChain c p'.prefixes spans 0) p' q') : Alike c n (keptAfter kept p p' q q') q q' := by
  have hback : q.backing = p.backing := backing_congr ha.prefixes
  have hback' : q'.backing = p'.backing := backing_congr ha'.prefixes
  apply h.step _ (doubled_congr hback) (doubled_congr hback')
  · intro x hx
    obtain ⟨hx, -, hx'⟩ := mem_keptAfter.mp hx
    exact ⟨hx, hx'⟩
  · intro b b' hpair
    left
    cases hpair with
    | @row i k _ _ hi hb hb' =>
      by_cases hne : i = id
      · subst hne
        rw [ha.table, hfresh, List.nil_append] at hb
        rw [ha'.table, hfresh', List.nil_append] at hb'
        obtain ⟨x, hx, hb, hb'⟩ := entry_of_matchChain hkept hb hb'
        exact .entry hx hb hb'
      · rw [ha.others i hne] at hb
        rw [ha'.others i hne] at hb'
        exact .row hi hb hb'
    | entry hx hb hb' =>
      rw [hback] at hb
      rw [hback'] at hb'
      obtain ⟨-, hkept, -⟩ := mem_keptAfter.mp hx
      exact .entry (hkept.resolve_right fun hnew => hnew.1 (mem_links.mpr ⟨_, hb⟩)) hb hb'

/-- Rows of a sequence were registered: every new entry is for the first of the tokens' blocks with its link. -/
structure Enrolled (c : PoolSizes) (id : Nat) (tokens : List Int) (p q : Pool K) : Prop where
  keys : q.keys = p.keys
  values : q.values = p.values
  seqs : q.seqs = p.seqs
  links : q.LinksNodup
  backing : p.backing ⊆ q.backing
  doubled : ∀ b, p.Doubled b → q.Doubled b
  first : ∀ {x b}, (x, b) ∈ q.backing → (x, b) ∈ p.backing ∨ ∃ j, (p.seqs id).blockTable[j]? = some b ∧
    HasLink (c.spans tokens) j x ∧ ∀ i < j, ¬HasLink (c.spans tokens) i x

theorem Counted.wp_registerPrefix_enrolled (h : p.Counted c n) {id : Nat} (hid : id < n) (tokens : List Int) :
    wp (registerPrefix c id tokens) (fun _ q => Enrolled c id tokens p q) (fun _ _ => False) p := by
  apply wp_mono (h.wp_registerPrefix hid tokens) _ fun _ _ hf => hf
  intro _ q hregistered
  obtain ⟨hq, ⟨added, hr⟩, -, hfirst, -⟩ := hregistered
  refine ⟨hr.keys, hr.values, hr.seqs, hq.links, ?_, fun b hb => ?_, fun {x b} hb => ?_⟩
  · rw [backing, backing, hr.prefixes, List.map_append]
    exact List.subset_append_left _ _
  · rw [Doubled, cacheRefs, hr.prefixes, List.map_append, ← Multiset.coe_add, Multiset.count_add]
    exact hb.trans (Nat.le_add_right _ _)
  · obtain ⟨e, he, heq⟩ := List.mem_map.mp hb
    rw [Prod.mk.injEq] at heq
    obtain ⟨rfl, rfl⟩ := heq
    exact (hfirst e he).imp_left List.mem_map_of_mem

/-- An entry kept beyond a registration was kept before it, or is for a block of the sequence. -/
theorem Alike.entry_enrolled {kept : List Link} (h : Alike c n kept p p') {id : Nat} {tokens : List Int}
    (hr : Enrolled c id tokens p q) (hr' : Enrolled c id tokens p' q') {x : Link} {b b' : Nat}
    (hx : x ∈ keptAfter kept p p' q q') (hb : (x, b) ∈ q.backing) (hb' : (x, b') ∈ q'.backing) :
    (x ∈ kept ∧ (x, b) ∈ p.backing ∧ (x, b') ∈ p'.backing) ∨
      ∃ j < (c.spans tokens).length, (p.seqs id).blockTable[j]? = some b ∧ (p'.seqs id).blockTable[j]? = some b' := by
  -- an entry with a link that was there was there
  have hold : ∀ {p q : Pool K}, Enrolled c id tokens p q → ∀ {b}, x ∈ p.links → (x, b) ∈ q.backing →
      (x, b) ∈ p.backing := by
    intro p q hr b hx hb
    obtain ⟨b₀, hb₀⟩ := mem_links.mp hx
    rw [hr.links.backing_unique hb (hr.backing hb₀)]
    exact hb₀
  obtain ⟨-, hkept | ⟨hnot, hnot'⟩, -⟩ := mem_keptAfter.mp hx
  · obtain ⟨hlink, hlink'⟩ := h.cached _ hkept
    exact .inl ⟨hkept, hold hr hlink hb, hold hr' hlink' hb'⟩
  · right
    obtain ⟨j, hget, hlink, hbefore⟩ := (hr.first hb).resolve_left fun hb => hnot (mem_links.mpr ⟨_, hb⟩)
    obtain ⟨j', hget', hlink', hbefore'⟩ := (hr'.first hb').resolve_left fun hb => hnot' (mem_links.mpr ⟨_, hb⟩)
    have hj : j = j' := by
      apply le_antisymm
      · exact not_lt.mp fun hlt => hbefore j' hlt hlink'
      · exact not_lt.mp fun hlt => hbefore' j hlt hlink
    exact ⟨j, (List.getElem?_eq_some_iff.mp hlink.2).1, hget, hj ▸ hget'⟩

/-- A sequence is registered in both pools, and no block under a second link. -/
theorem Alike.enrolled {kept : List Link} (h : Alike c n kept p p') {id : Nat} (hid : id < n) {tokens : List Int}
    (hr : Enrolled c id tokens p q) (hr' : Enrolled c id tokens p' q') (hdoubled : ∀ b, q.Doubled b → p.Doubled b)
    (hdoubled' : ∀ b, q'.Doubled b → p'.Doubled b) : Alike c n (keptAfter kept p p' q q') q q' := by
  apply h.step _ (fun b => ⟨hdoubled b, hr.doubled b⟩) fun b => ⟨hdoubled' b, hr'.doubled b⟩
  · intro x hx
    obtain ⟨hx, -, hx'⟩ := mem_keptAfter.mp hx
    exact ⟨hx, hx'⟩
  · intro b b' hpair
    left
    cases hpair with
    | row hi hb hb' =>
      rw [hr.seqs] at hb
      rw [hr'.seqs] at hb'
      exact .row hi hb hb'
    | entry hx hb hb' =>
      obtain ⟨hx, hb, hb'⟩ | ⟨j, -, hget, hget'⟩ := h.entry_enrolled hr hr' hx hb hb'
      · exact .entry hx hb hb'
      · exact .row hid hget hget'

end Pool

end InferenceEngine
