import InferenceEngine.KvCache.Alike
import InferenceEngine.Model.Batch
import Mathlib.Algebra.Order.BigOperators.Group.Finset

/-!
# Laying out a batch

The first loop of `forward_batch` is the only part of it that takes blocks. Whether it gets through or stops
at an item, the blocks it took are those the tables gained, and they came out of the supply of the pool.
-/

namespace InferenceEngine

open Exec

/-- The sequences of a batch and their tokens; an item with a null pointer has none. -/
def itemFeeds (items : List BatchItem) : List Feed :=
  items.filterMap fun item => item.blocks.map fun id => (id, item.tokens)

@[simp] theorem itemFeeds_feedItems (feeds : List Feed) : itemFeeds (feedItems feeds) = feeds := by
  simp [itemFeeds, feedItems, List.filterMap_map]

namespace Pool

variable {K : Type} {c : PoolSizes} {n : Nat} {p p' : Pool K}

/-- The entries of all block tables. -/
def tableBlocks (n : Nat) (p : Pool K) : Nat := ∑ i ∈ Finset.range n, (p.seqs i).blockTable.length

/-- The supply and the tables keep their sum, and the cache what it has under two links. -/
structure Grew (c : PoolSizes) (n : Nat) (ids : List Nat) (p p' : Pool K) : Prop where
  wf : p'.Wf c n
  counted : p'.Counted c n
  extended : Extended ids p p'
  supply : p'.supply.length + p'.tableBlocks n = p.supply.length + p.tableBlocks n
  doubled : ∀ b, p'.Doubled b ↔ p.Doubled b

theorem Grew.refl (hw : p.Wf c n) (hc : p.Counted c n) (ids : List Nat) : Grew c n ids p p :=
  ⟨hw, hc, Extended.refl ids p, rfl, fun _ => Iff.rfl⟩

theorem Grew.trans {ids : List Nat} {q : Pool K} (h : Grew c n ids p q) (h' : Grew c n ids q p') :
    Grew c n ids p p' :=
  ⟨h'.wf, h'.counted, h.extended.trans h'.extended, h'.supply.trans h.supply,
    fun b => (h'.doubled b).trans (h.doubled b)⟩

theorem Grew.mono {ids ids' : List Nat} (h : Grew c n ids p p') (hsub : ids ⊆ ids') : Grew c n ids' p p' :=
  ⟨h.wf, h.counted, h.extended.mono hsub, h.supply, h.doubled⟩

theorem Taken.supply_eq {id k : Nat} (h : Taken id k p p') : p'.supply = p.supply.drop k := by
  rw [supply, supply, List.drop_append, h.freeList, h.order, List.map_drop]
  rfl

theorem tableBlocks_eq_add {id k : Nat} (hid : id < n)
    (hself : (p'.seqs id).blockTable.length = (p.seqs id).blockTable.length + k)
    (hothers : ∀ i, i ≠ id → p'.seqs i = p.seqs i) : p'.tableBlocks n = p.tableBlocks n + k := by
  have hmem : id ∈ Finset.range n := Finset.mem_range.mpr hid
  have hrest : ∑ i ∈ (Finset.range n).erase id, (p'.seqs i).blockTable.length =
      ∑ i ∈ (Finset.range n).erase id, (p.seqs i).blockTable.length := by
    apply Finset.sum_congr rfl
    intro i hi
    rw [hothers i (Finset.ne_of_mem_erase hi)]
  rw [tableBlocks, tableBlocks, ← Finset.add_sum_erase _ _ hmem, ← Finset.add_sum_erase _ _ hmem, hrest, hself]
  omega

/-- `reserve` takes the missing blocks out of the supply, or all of it. -/
theorem wp_reserve_grew (hw : p.Wf c n) (hc : p.Counted c n) {id : Nat} (hid : id < n) (tokens : List Int) :
    wp (reserve c id tokens.length)
      (fun _ p' => Grew c n [id] p p' ∧
        (p'.seqs id).blockTable.length = (p.seqs id).blockTable.length + p.missing c (id, tokens))
      (fun _ p' => Grew c n [id] p p' ∧ p.supply.length < p.missing c (id, tokens)) p := by
  -- `k` blocks of the supply were taken
  have hgrew : ∀ {k : Nat} {p' : Pool K} {new : List Nat}, p'.Wf c n → Grown id new p p' → p'.Counted c n →
      k ≤ p.supply.length → Taken id k p p' → Grew c n [id] p p' := by
    intro k p' new hw' hgrown hc' hk htaken
    refine ⟨hw', hc', .of_grown hgrown (List.mem_singleton_self id), ?_, htaken.doubled hc⟩
    have htable : (p'.seqs id).blockTable.length = (p.seqs id).blockTable.length + k := by
      rw [htaken.self, List.length_append, List.length_take, Nat.min_eq_left hk]
    rw [htaken.supply_eq, tableBlocks_eq_add hid htable htaken.others, List.length_drop]
    omega
  apply wp_mono (wp_and (wp_reserve tokens.length hid hw) (hc.wp_reserve hid tokens.length))
  · intro _ p' ⟨⟨hw', new, hgrown, hnew, _⟩, hc', hle, htaken⟩
    refine ⟨hgrew hw' hgrown hc' hle htaken, ?_⟩
    rw [hgrown.self, List.length_append, hnew]
    rfl
  · intro e p' ⟨⟨hw', ⟨new, hgrown⟩, _⟩, _, hc', hlt, htaken⟩
    exact ⟨hgrew hw' hgrown hc' le_rfl htaken, hlt⟩

end Pool

namespace Model

open Pool

variable {W Q K : Type} {M : Model W Q K} {c : PoolSizes} {n : Nat} {p : Pool K}

/-- The layout of any items. It gets through when every item has a sequence and tokens and the supply has the
blocks. -/
theorem wp_layoutItems_grew {items : List BatchItem} (hw : p.Wf c n) (hc : p.Counted c n)
    (hids : ∀ f ∈ itemFeeds items, f.1 < n) (hnodup : ((itemFeeds items).map Prod.fst).Nodup) (total : Nat) :
    wp (layoutItems c items total)
      (fun _ p' => Grew c n ((itemFeeds items).map Prod.fst) p p' ∧ items = feedItems (itemFeeds items) ∧
        p.needed c (itemFeeds items) ≤ p.supply.length)
      (fun _ p' => Grew c n ((itemFeeds items).map Prod.fst) p p' ∧
        (items = feedItems (itemFeeds items) → (∀ f ∈ itemFeeds items, f.2 ≠ []) →
          p.supply.length < p.needed c (itemFeeds items))) p := by
  induction items generalizing p total with
  | nil => exact ⟨Grew.refl hw hc _, rfl, Nat.zero_le _⟩
  | cons item items ih =>
    obtain ⟨blocks, tokens⟩ := item
    cases blocks with
    | none =>
      refine ⟨Grew.refl hw hc _, fun hitems => ?_⟩
      have hmem : (⟨none, tokens⟩ : BatchItem) ∈ feedItems (itemFeeds (⟨none, tokens⟩ :: items)) :=
        hitems ▸ List.mem_cons_self
      obtain ⟨f, -, hf⟩ := List.mem_map.mp hmem
      cases hf
    | some id =>
      have hfeeds : itemFeeds (⟨some id, tokens⟩ :: items) = (id, tokens) :: itemFeeds items := rfl
      rw [hfeeds] at hids hnodup ⊢
      rw [List.map_cons, List.nodup_cons] at hnodup
      have hid : id < n := hids _ List.mem_cons_self
      rw [layoutItems]
      by_cases hne : tokens = []
      · simp only [hne, if_true, wp_bind, wp_throw]
        exact ⟨Grew.refl hw hc _, fun _ hall => absurd rfl (hall _ List.mem_cons_self)⟩
      simp only [hne, if_false, wp_bind, wp_pure, wp_get]
      have hone : [id] ⊆ id :: (itemFeeds items).map Prod.fst := by simp
      have hrest : (itemFeeds items).map Prod.fst ⊆ id :: (itemFeeds items).map Prod.fst :=
        List.subset_cons_self _ _
      have hneeded : p.needed c ((id, tokens) :: itemFeeds items) =
          p.missing c (id, tokens) + p.needed c (itemFeeds items) := rfl
      apply wp_mono (wp_reserve_grew hw hc hid tokens)
      · intro _ q hgrew
        obtain ⟨hg, htable⟩ := hgrew
        -- the later items lack what they lacked before
        have hothers : ∀ i, i ≠ id → q.seqs i = p.seqs i := fun i hi =>
          hg.extended.others i (by simpa using hi)
        have hsame : q.needed c (itemFeeds items) = p.needed c (itemFeeds items) := by
          rw [needed, needed, List.map_congr_left]
          intro f hf
          have hother : f.1 ≠ id := fun heq => hnodup.1 (List.mem_map.mpr ⟨f, hf, heq⟩)
          rw [missing, missing, hothers f.1 hother]
        have hblocks := tableBlocks_eq_add hid htable hothers
        have hsupply := hg.supply
        apply wp_mono (ih hg.wf hg.counted (fun f hf => hids f (List.mem_cons_of_mem _ hf)) hnodup.2
          (total + tokens.length))
        · intro out p' hgrew
          obtain ⟨hg', hitems, hle⟩ := hgrew
          refine ⟨(hg.mono hone).trans (hg'.mono hrest), ?_, by omega⟩
          change _ = (⟨some id, tokens⟩ : BatchItem) :: feedItems (itemFeeds items)
          rw [← hitems]
        · intro e p' hgrew
          obtain ⟨hg', hshort⟩ := hgrew
          refine ⟨(hg.mono hone).trans (hg'.mono hrest), fun hitems hall => ?_⟩
          have hlt := hshort (List.cons.inj hitems).2 fun f hf => hall f (List.mem_cons_of_mem _ hf)
          omega
      · intro e q hgrew
        obtain ⟨hg, hlt⟩ := hgrew
        exact ⟨hg.mono hone, fun _ _ => by omega⟩

end Model

end InferenceEngine
