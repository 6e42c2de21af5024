import InferenceEngine.KvCache.BlockManager
import Mathlib.Algebra.BigOperators.Group.Finset.Basic
import Mathlib.Algebra.Order.BigOperators.Group.Multiset
import Mathlib.Data.Multiset.Count
import Mathlib.Data.Multiset.AddSub
import Mathlib.Tactic.Abel

/-!
# References to blocks

The references to blocks form a multiset: one for every occurrence of a block in a block table, and one
for every cache entry. The allocator tracks that multiset, and every operation of the pool is an
operation on it.
-/

namespace InferenceEngine

open Exec

namespace BlockAllocator

/-- The reference counts are those of the multiset `refs`, and the free blocks are the others. -/
structure Tracks (numBlocks : Nat) (refs : Multiset Nat) (a : BlockAllocator) : Prop where
  refCount_eq : ∀ b, a.refCount b = refs.count b
  nodup : a.freeList.Nodup
  mem_freeList : ∀ b, b ∈ a.freeList ↔ b < numBlocks ∧ b ∉ refs
  lt : ∀ b ∈ refs, b < numBlocks

variable {numBlocks b : Nat} {refs : Multiset Nat} {a : BlockAllocator}

theorem tracks_create (numBlocks : Nat) : (create numBlocks).Tracks numBlocks 0 where
  refCount_eq _ := rfl
  nodup := List.nodup_range
  mem_freeList b := by simp [create]
  lt b hb := by simp at hb

theorem allocate_error (hfree : a.numFree = 0) :
    a.allocate = .error (.runtimeError "BlockAllocator: out of blocks") := by
  rw [allocate, List.eq_nil_of_length_eq_zero hfree]

namespace Tracks

theorem allocate_eq (h : a.Tracks numBlocks refs) (hfree : a.numFree ≠ 0) :
    ∃ b a', a.allocate = .ok (b, a') ∧ b ∉ refs ∧ a'.Tracks numBlocks (b ::ₘ refs) ∧
      a.freeList = b :: a'.freeList := by
  obtain ⟨freeList, refCount⟩ := a
  obtain _ | ⟨b, rest⟩ := freeList
  · simp [numFree] at hfree
  have hb := (h.mem_freeList b).mp List.mem_cons_self
  have hnodup := List.nodup_cons.mp h.nodup
  refine ⟨b, _, rfl, hb.2, ⟨fun x => ?_, hnodup.2, fun x => ?_, fun x hx => ?_⟩, rfl⟩
  · by_cases hx : x = b
    · subst x
      simp [Multiset.count_eq_zero_of_notMem hb.2]
    · simp only [Function.update_of_ne hx, Multiset.count_cons_of_ne hx]
      exact h.refCount_eq x
  · have hmem := h.mem_freeList x
    simp only [List.mem_cons] at hmem
    simp only [Multiset.mem_cons, not_or]
    by_cases hx : x = b
    · subst x
      simp [hnodup.1]
    · simpa [hx] using hmem
  · rcases Multiset.mem_cons.mp hx with rfl | hx
    · exact hb.1
    · exact h.lt x hx

theorem incref_eq (h : a.Tracks numBlocks refs) (hb : b ∈ refs) :
    ∃ a', a.incref b = .ok a' ∧ a'.Tracks numBlocks (b ::ₘ refs) ∧ a'.freeList = a.freeList := by
  have hpos : a.refCount b ≠ 0 := by
    rw [h.refCount_eq]
    exact Multiset.count_ne_zero.mpr hb
  refine ⟨_, if_neg hpos, ⟨fun x => ?_, h.nodup, fun x => ?_, fun x hx => ?_⟩, rfl⟩
  · by_cases hx : x = b
    · subst x
      simp [h.refCount_eq]
    · simp only [Function.update_of_ne hx, Multiset.count_cons_of_ne hx]
      exact h.refCount_eq x
  · rw [h.mem_freeList, Multiset.mem_cons, not_or]
    refine and_congr_right fun _ => ⟨fun hx => ⟨?_, hx⟩, And.right⟩
    rintro rfl
    exact hx hb
  · rcases Multiset.mem_cons.mp hx with rfl | hx
    · exact h.lt x hb
    · exact h.lt x hx

/-- Dropping a reference frees the block exactly when it was the last one. -/
theorem free_eq (h : a.Tracks numBlocks (b ::ₘ refs)) :
    ∃ a', a.free b = .ok a' ∧ a'.Tracks numBlocks refs ∧
      a'.freeList = if b ∈ refs then a.freeList else b :: a.freeList := by
  have hcount : a.refCount b = refs.count b + 1 := by rw [h.refCount_eq, Multiset.count_cons_self]
  have hpos : a.refCount b ≠ 0 := by omega
  have hlast : a.refCount b - 1 = 0 ↔ b ∉ refs := by
    rw [hcount, Nat.add_sub_cancel, Multiset.count_eq_zero]
  have hnot : b ∉ a.freeList := fun hb => ((h.mem_freeList b).mp hb).2 (Multiset.mem_cons_self b refs)
  have hlist : (if a.refCount b - 1 = 0 then b :: a.freeList else a.freeList) =
      if b ∈ refs then a.freeList else b :: a.freeList := by
    by_cases hb : b ∈ refs
    · rw [if_pos hb, if_neg (by simpa [hlast] using hb)]
    · rw [if_neg hb, if_pos (hlast.mpr hb)]
  refine ⟨_, if_neg hpos, ⟨fun x => ?_, ?_, fun x => ?_, fun x hx => ?_⟩, hlist⟩
  · by_cases hx : x = b
    · subst x
      simp [hcount]
    · simp only [Function.update_of_ne hx, h.refCount_eq, Multiset.count_cons_of_ne hx]
  · rw [hlist]
    split
    · exact h.nodup
    · exact List.nodup_cons.mpr ⟨hnot, h.nodup⟩
  · rw [hlist]
    have hmem := h.mem_freeList x
    simp only [Multiset.mem_cons, not_or] at hmem
    by_cases hx : x = b
    · subst x
      have hlt := h.lt b (Multiset.mem_cons_self b refs)
      by_cases hb : b ∈ refs <;> simp [hb, hnot, hlt]
    · by_cases hb : b ∈ refs <;> simp [hb, hx, hmem]
  · exact h.lt x (Multiset.mem_cons_of_mem hx)

/-- The free blocks are the blocks without a reference. -/
theorem numFree_add_card (h : a.Tracks numBlocks refs) :
    a.numFree + refs.toFinset.card = numBlocks := by
  have hdisj : Disjoint a.freeList.toFinset refs.toFinset := by
    rw [Finset.disjoint_left]
    intro b hb hb'
    exact ((h.mem_freeList b).mp (List.mem_toFinset.mp hb)).2 (Multiset.mem_toFinset.mp hb')
  have hunion : a.freeList.toFinset ∪ refs.toFinset = Finset.range numBlocks := by
    ext b
    simp only [Finset.mem_union, List.mem_toFinset, Multiset.mem_toFinset, Finset.mem_range,
      h.mem_freeList]
    have := h.lt b
    tauto
  rw [numFree, ← List.toFinset_card_of_nodup h.nodup, ← Finset.card_union_of_disjoint hdisj, hunion,
    Finset.card_range]

end Tracks

end BlockAllocator

namespace Pool

variable {K : Type} {c : PoolSizes} {n : Nat} {p : Pool K}

/-- The references sequences `0..n - 1` hold. -/
def tableRefs (n : Nat) (p : Pool K) : Multiset Nat :=
  ∑ i ∈ Finset.range n, ((p.seqs i).blockTable : Multiset Nat)

/-- The references the cache holds. -/
def cacheRefs (p : Pool K) : Multiset Nat := (p.prefixes.map fun e => e.2.block : List Nat)

def refs (n : Nat) (p : Pool K) : Multiset Nat := p.tableRefs n + p.cacheRefs

/-- The references of the sequences other than `id`. -/
def otherRefs (n id : Nat) (p : Pool K) : Multiset Nat :=
  ∑ i ∈ (Finset.range n).erase id, ((p.seqs i).blockTable : Multiset Nat)

/-- The allocator tracks the references of the pool. -/
def Tracked (c : PoolSizes) (n : Nat) (p : Pool K) : Prop := p.alloc.Tracks c.numBlocks (p.refs n)

@[simp] theorem setSeq_seqs_self (p : Pool K) (id : Nat) (seq : SequenceBlocks) :
    (p.setSeq id seq).seqs id = seq := by simp [setSeq]

theorem setSeq_seqs_of_ne (p : Pool K) {id i : Nat} (seq : SequenceBlocks) (h : i ≠ id) :
    (p.setSeq id seq).seqs i = p.seqs i := by simp [setSeq, h]

@[simp] theorem setSeq_prefixes (p : Pool K) (id : Nat) (seq : SequenceBlocks) :
    (p.setSeq id seq).prefixes = p.prefixes := rfl

@[simp] theorem setSeq_keys (p : Pool K) (id : Nat) (seq : SequenceBlocks) :
    (p.setSeq id seq).keys = p.keys := rfl

@[simp] theorem setSeq_values (p : Pool K) (id : Nat) (seq : SequenceBlocks) :
    (p.setSeq id seq).values = p.values := rfl

@[simp] theorem cacheRefs_setSeq (p : Pool K) (id : Nat) (seq : SequenceBlocks) :
    (p.setSeq id seq).cacheRefs = p.cacheRefs := rfl

theorem tableRefs_eq {id : Nat} (hid : id < n) (p : Pool K) :
    p.tableRefs n = (p.seqs id).blockTable + p.otherRefs n id :=
  (Finset.add_sum_erase _ _ (Finset.mem_range.mpr hid)).symm

theorem otherRefs_setSeq (id : Nat) (p : Pool K) (seq : SequenceBlocks) :
    (p.setSeq id seq).otherRefs n id = p.otherRefs n id :=
  Finset.sum_congr rfl fun i hi => by rw [setSeq_seqs_of_ne _ _ (Finset.ne_of_mem_erase hi)]

theorem tableRefs_setSeq {id : Nat} (hid : id < n) (p : Pool K) (seq : SequenceBlocks) :
    (p.setSeq id seq).tableRefs n = seq.blockTable + p.otherRefs n id := by
  rw [tableRefs_eq hid, setSeq_seqs_self, otherRefs_setSeq]

/-- The references depend on the block tables and the cached blocks only. -/
theorem refs_congr {p p' : Pool K} (hseqs : ∀ i, (p'.seqs i).blockTable = (p.seqs i).blockTable)
    (hprefixes : p'.prefixes.map (·.2.block) = p.prefixes.map (·.2.block)) :
    p'.refs n = p.refs n := by
  simp only [refs, tableRefs, cacheRefs, hseqs, hprefixes]

theorem refs_pushBlock {id : Nat} (hid : id < n) (p : Pool K) (block : Nat) :
    (p.pushBlock id block).refs n = block ::ₘ p.refs n := by
  simp only [refs, pushBlock, tableRefs_setSeq hid, cacheRefs_setSeq, tableRefs_eq hid p]
  rw [← Multiset.singleton_add, ← Multiset.coe_add, ← Multiset.coe_singleton]
  abel

theorem mem_tableRefs {id b : Nat} (hid : id < n) (hb : b ∈ (p.seqs id).blockTable) :
    b ∈ p.tableRefs n := by
  rw [tableRefs_eq hid]
  exact Multiset.mem_add.mpr (.inl hb)

theorem mem_refs_of_mem_table {id b : Nat} (hid : id < n) (hb : b ∈ (p.seqs id).blockTable) :
    b ∈ p.refs n :=
  Multiset.mem_add.mpr (.inl (mem_tableRefs hid hb))

theorem mem_refs {b : Nat} (hb : b ∈ p.refs n) :
    (∃ i < n, b ∈ (p.seqs i).blockTable) ∨ ∃ e ∈ p.prefixes, e.2.block = b := by
  obtain hb | hb := Multiset.mem_add.mp hb
  · obtain ⟨i, hi, hb⟩ := Multiset.mem_sum.mp hb
    exact .inl ⟨i, Finset.mem_range.mp hi, Multiset.mem_coe.mp hb⟩
  · obtain ⟨e, he, rfl⟩ := List.mem_map.mp (Multiset.mem_coe.mp hb)
    exact .inr ⟨e, he, rfl⟩

/-- The references of a block are its occurrences in tables and the entries of the cache it backs. -/
theorem count_refs (p : Pool K) (n b : Nat) : (p.refs n).count b =
    (∑ i ∈ Finset.range n, (p.seqs i).blockTable.count b) + p.prefixes.countP fun e => e.2.block = b := by
  rw [refs, Multiset.count_add, tableRefs, Multiset.count_sum', cacheRefs, Multiset.coe_count,
    List.count_eq_countP, List.countP_map]
  refine congrArg₂ _ (Finset.sum_congr rfl fun id _ => Multiset.coe_count _ _) ?_
  exact List.countP_congr fun e _ => by simp

theorem mem_cacheRefs {e : Hash × PrefixEntry} (he : e ∈ p.prefixes) : e.2.block ∈ p.cacheRefs :=
  Multiset.mem_coe.mpr (List.mem_map_of_mem he)

theorem mem_refs_of_mem_prefixes {e : Hash × PrefixEntry} (he : e ∈ p.prefixes) :
    e.2.block ∈ p.refs n :=
  Multiset.mem_add.mpr (.inr (mem_cacheRefs he))

end Pool

end InferenceEngine
