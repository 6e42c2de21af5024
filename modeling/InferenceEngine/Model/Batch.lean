import InferenceEngine.KvCache.Rows
import InferenceEngine.Model.Decoder
import Mathlib.Data.List.TakeWhile

/-!
# The batched forward and the pool

What `forward_batch` does to block tables, lengths and stored rows, whether it returns or throws: the
tables of the batched sequences grow to the blocks their new tokens need, new rows land behind the
committed ones, and at the end the new rows are committed. Nothing else changes.
-/

namespace InferenceEngine

open Exec

abbrev Feed := Nat × List Int

def feedItems (feeds : List Feed) : List BatchItem := feeds.map fun f => ⟨some f.1, f.2⟩

namespace Pool

variable {K : Type} {c : PoolSizes} {n : Nat} {p : Pool K}

/-- The blocks a feed lacks. -/
def missing (c : PoolSizes) (p : Pool K) (f : Feed) : Nat :=
  c.blocksFor ((p.seqs f.1).length + f.2.length) - (p.seqs f.1).blockTable.length

def needed (c : PoolSizes) (p : Pool K) (feeds : List Feed) : Nat := (feeds.map (p.missing c)).sum

theorem needed_append (feeds feeds' : List Feed) :
    p.needed c (feeds ++ feeds') = p.needed c feeds + p.needed c feeds' := by
  simp [needed]

/-- The tables of `ids` have grown; cached blocks may have been given up for it. -/
structure Extended (ids : List Nat) (p p' : Pool K) : Prop where
  keys : p'.keys = p.keys
  values : p'.values = p.values
  table : ∀ i, ∃ new, (p'.seqs i).blockTable = (p.seqs i).blockTable ++ new
  length : ∀ i, (p'.seqs i).length = (p.seqs i).length
  others : ∀ i, i ∉ ids → p'.seqs i = p.seqs i
  prefixes : p'.prefixes.Sublist p.prefixes

theorem Extended.refl (ids : List Nat) (p : Pool K) : Extended ids p p :=
  ⟨rfl, rfl, fun _ => ⟨[], by simp⟩, fun _ => rfl, fun _ _ => rfl, List.Sublist.refl _⟩

theorem Extended.of_grown {id : Nat} {ids new : List Nat} {p p' : Pool K} (h : Grown id new p p')
    (hid : id ∈ ids) : Extended ids p p' where
  keys := h.keys
  values := h.values
  table := h.table
  length := h.length
  others i hi := h.others i fun heq => hi (heq ▸ hid)
  prefixes := h.prefixes

theorem Extended.trans {ids : List Nat} {p q r : Pool K} (h : Extended ids p q)
    (h' : Extended ids q r) : Extended ids p r where
  keys := h'.keys.trans h.keys
  values := h'.values.trans h.values
  table i := by
    obtain ⟨new, hnew⟩ := h.table i
    obtain ⟨new', hnew'⟩ := h'.table i
    exact ⟨new ++ new', by rw [hnew', hnew, List.append_assoc]⟩
  length i := (h'.length i).trans (h.length i)
  others i hi := (h'.others i hi).trans (h.others i hi)
  prefixes := h'.prefixes.trans h.prefixes

theorem Extended.mono {ids ids' : List Nat} {p p' : Pool K} (h : Extended ids p p') (hsub : ids ⊆ ids') :
    Extended ids' p p' :=
  ⟨h.keys, h.values, h.table, h.length, fun i hi => h.others i fun hmem => hi (hsub hmem), h.prefixes⟩

theorem Extended.kept {ids : List Nat} {p' : Pool K} (h : Extended ids p p') (hp : p.Wf c n) :
    Kept c p p' where
  length_le i := (h.length i).ge
  committed i layer r hr := by
    obtain ⟨new, hnew⟩ := h.table i
    rw [rowAt, rowAt, hnew, c.rowAddr_append (hp.lt_of_lt_length hr), cell_congr h.keys h.values]
  cached e he := ⟨h.prefixes.subset he, fun _ _ _ => cell_congr h.keys h.values _ _⟩

/-- Rows were stored: the tables and the allocator are as before. -/
structure Stored (c : PoolSizes) (p p' : Pool K) : Prop where
  alloc : p'.alloc = p.alloc
  seqs : p'.seqs = p.seqs
  prefixes : p'.prefixes = p.prefixes
  kept : Kept c p p'

theorem Stored.refl (c : PoolSizes) (p : Pool K) : Stored c p p := ⟨rfl, rfl, rfl, Kept.refl c p⟩

theorem Stored.trans {p q r : Pool K} (h : Stored c p q) (h' : Stored c q r) : Stored c p r :=
  ⟨h'.alloc.trans h.alloc, h'.seqs.trans h.seqs, h'.prefixes.trans h.prefixes, h.kept.trans h'.kept⟩

theorem Stored.wf {p' : Pool K} (h : Stored c p p') (hp : p.Wf c n) : p'.Wf c n :=
  hp.congr h.alloc h.seqs h.prefixes

theorem Wf.stored_write (h : p.Wf c n) {id layer start len : Nat} {k v : Rows K} (hid : id < n)
    (hstart : (p.seqs id).length ≤ start)
    (hend : start + len ≤ (p.seqs id).blockTable.length * c.blockSize) :
    Stored c p (p.write c id layer start k v len) where
  alloc := rfl
  seqs := rfl
  prefixes := rfl
  kept :=
    { length_le := fun _ => le_rfl
      committed := fun i layer' r hr => by
        by_cases hi : i < n
        · refine write_rowAt_of_ne h hid hstart hend hi (h.lt_of_lt_length hr) ?_ layer'
          by_cases hii : i = id
          · subst hii
            exact .inr (.inl (hr.trans_le hstart))
          · exact .inl hii
        · rw [h.fresh i (by omega)] at hr
          exact absurd hr (Nat.not_lt_zero r)
      cached := fun e he => ⟨he, fun layer' _ hs => write_blockCell h hid hstart hend he hs layer'⟩ }

/-- The lengths after all feeds are committed. -/
def commitAll (feeds : List Feed) (p : Pool K) : Pool K :=
  feeds.foldl (fun p f => p.commit f.1 f.2.length) p

theorem commitAll_table (feeds : List Feed) (p : Pool K) (i : Nat) :
    ((p.commitAll feeds).seqs i).blockTable = (p.seqs i).blockTable := by
  induction feeds generalizing p with
  | nil => rfl
  | cons f feeds ih => exact (ih _).trans (commit_table f.1 f.2.length i)

theorem commitAll_of_not_mem {feeds : List Feed} {i : Nat} (hi : i ∉ feeds.map Prod.fst) (p : Pool K) :
    (p.commitAll feeds).seqs i = p.seqs i := by
  induction feeds generalizing p with
  | nil => rfl
  | cons f feeds ih =>
    simp only [List.map_cons, List.mem_cons, not_or] at hi
    exact (ih hi.2 _).trans (setSeq_seqs_of_ne _ _ hi.1)

theorem commitAll_length {feeds : List Feed} (hnodup : (feeds.map Prod.fst).Nodup) {f : Feed}
    (hf : f ∈ feeds) (p : Pool K) :
    ((p.commitAll feeds).seqs f.1).length = (p.seqs f.1).length + f.2.length := by
  induction feeds generalizing p with
  | nil => simp at hf
  | cons g feeds ih =>
    simp only [List.map_cons, List.nodup_cons] at hnodup
    rcases List.mem_cons.mp hf with rfl | hf
    · refine (congrArg SequenceBlocks.length (commitAll_of_not_mem hnodup.1 _)).trans ?_
      rw [commit_length, if_pos rfl]
    · refine (ih hnodup.2 hf _).trans ?_
      have hne : f.1 ≠ g.1 := fun heq => hnodup.1 (heq ▸ List.mem_map_of_mem hf)
      rw [commit_length, if_neg hne, Nat.add_zero]

@[simp] theorem commitAll_frame (feeds : List Feed) (p : Pool K) :
    (p.commitAll feeds).keys = p.keys ∧ (p.commitAll feeds).values = p.values ∧
      (p.commitAll feeds).prefixes = p.prefixes ∧ (p.commitAll feeds).alloc = p.alloc := by
  induction feeds generalizing p with
  | nil => exact ⟨rfl, rfl, rfl, rfl⟩
  | cons f feeds ih => exact ih _

theorem kept_commitAll {feeds : List Feed} (hnodup : (feeds.map Prod.fst).Nodup) (p : Pool K) :
    Kept c p (p.commitAll feeds) := by
  obtain ⟨hkeys, hvalues, hprefixes, -⟩ := commitAll_frame feeds p
  refine ⟨fun i => ?_, fun i layer row _ => ?_, fun e he => ⟨hprefixes ▸ he, fun _ _ _ => ?_⟩⟩
  · by_cases hi : i ∈ feeds.map Prod.fst
    · obtain ⟨f, hf, rfl⟩ := List.mem_map.mp hi
      rw [commitAll_length hnodup hf]
      exact Nat.le_add_right _ _
    · rw [commitAll_of_not_mem hi]
  · exact rowAt_congr hkeys hvalues (commitAll_table feeds p i) layer row
  · exact cell_congr hkeys hvalues _ _

theorem Wf.commitAll {feeds : List Feed} (h : p.Wf c n) (hids : ∀ f ∈ feeds, f.1 < n)
    (hnodup : (feeds.map Prod.fst).Nodup) (hle : ∀ f ∈ feeds,
      (p.seqs f.1).length + f.2.length ≤ (p.seqs f.1).blockTable.length * c.blockSize) :
    (p.commitAll feeds).Wf c n := by
  induction feeds generalizing p with
  | nil => exact h
  | cons f feeds ih =>
    simp only [List.map_cons, List.nodup_cons] at hnodup
    refine ih (h.commit _ (hids f List.mem_cons_self) (hle f List.mem_cons_self))
      (fun g hg => hids g (List.mem_cons_of_mem _ hg)) hnodup.2 fun g hg => ?_
    have hne : g.1 ≠ f.1 := fun heq => hnodup.1 (heq ▸ List.mem_map_of_mem hg)
    rw [commit_table, commit_length, if_neg hne, Nat.add_zero]
    exact hle g (List.mem_cons_of_mem _ hg)

/-- A batch was fed. -/
structure Fed (c : PoolSizes) (feeds : List Feed) (p p' : Pool K) : Prop where
  kept : Kept c p p'
  others : ∀ i, i ∉ feeds.map Prod.fst → p'.seqs i = p.seqs i
  table : ∀ i, ∃ new, (p'.seqs i).blockTable = (p.seqs i).blockTable ++ new
  length : ∀ f ∈ feeds, (p'.seqs f.1).length = (p.seqs f.1).length + f.2.length
  blocks : ∀ f ∈ feeds, (p'.seqs f.1).blockTable.length = (p.seqs f.1).blockTable.length + p.missing c f
  prefixes : p'.prefixes.Sublist p.prefixes
  enough : p.needed c feeds ≤ p.freeBlocks →
    p'.prefixes = p.prefixes ∧ p'.freeBlocks + p.needed c feeds = p.freeBlocks

/-- A batch was given up in the middle: only when the last norm is missing are the rows committed. With
enough blocks it has taken those of the feeds before the first one without tokens. -/
structure Interrupted (c : PoolSizes) (feeds : List Feed) (committed : Prop) (e : Error)
    (p p' : Pool K) : Prop where
  others : ∀ i, i ∉ feeds.map Prod.fst → p'.seqs i = p.seqs i
  table : ∀ i, ∃ new, (p'.seqs i).blockTable = (p.seqs i).blockTable ++ new
  length : (∀ i, (p'.seqs i).length = (p.seqs i).length) ∨
    committed ∧ ∀ f ∈ feeds, (p'.seqs f.1).length = (p.seqs f.1).length + f.2.length
  prefixes : p'.prefixes.Sublist p.prefixes
  enough : p.needed c feeds ≤ p.freeBlocks → e ∉ BlockAllocator.errors ∧ p'.prefixes = p.prefixes ∧
    p'.freeBlocks + p.needed c (feeds.takeWhile fun f => f.2 ≠ []) = p.freeBlocks ∧
    ∀ f ∈ feeds, (p'.seqs f.1).blockTable.length ≤ (p.seqs f.1).blockTable.length + p.missing c f

end Pool

namespace Model

open Pool

variable {W Q K : Type} {M : Model W Q K} {c : PoolSizes} {n : Nat} {p : Pool K}

/-! ### The layout -/

/-- The slots of feeds laid out from `total` on. -/
def slotsFrom (past : Nat → Nat) : List Feed → Nat → List BatchSlot
  | [], _ => []
  | f :: feeds, total =>
    ⟨f.1, total, f.2.length, past f.1⟩ :: slotsFrom past feeds (total + f.2.length)

def positionsOf (past : Nat → Nat) (feeds : List Feed) : List Nat :=
  feeds.flatMap fun f => (List.range f.2.length).map (past f.1 + ·)

theorem mem_slotsFrom {past : Nat → Nat} {feeds : List Feed} {total : Nat} {slot : BatchSlot}
    (h : slot ∈ slotsFrom past feeds total) :
    ∃ f ∈ feeds, slot.blocks = f.1 ∧ slot.len = f.2.length ∧ slot.past = past f.1 := by
  induction feeds generalizing total with
  | nil => simp [slotsFrom] at h
  | cons f feeds ih =>
    rcases List.mem_cons.mp h with rfl | h
    · exact ⟨f, List.mem_cons_self, rfl, rfl, rfl⟩
    · obtain ⟨g, hg, hslot⟩ := ih h
      exact ⟨g, List.mem_cons_of_mem _ hg, hslot⟩

/-- The first loop of `forward_batch`. It throws on an item without tokens, and when blocks are short. -/
theorem wp_layoutItems (h : p.Wf c n) {feeds : List Feed} (hids : ∀ f ∈ feeds, f.1 < n)
    (hnodup : (feeds.map Prod.fst).Nodup) (total : Nat) :
    wp (layoutItems c (feedItems feeds) total)
      (fun out p' => out = (slotsFrom (fun i => (p.seqs i).length) feeds total, feeds.flatMap Prod.snd,
          positionsOf (fun i => (p.seqs i).length) feeds) ∧
        p'.Wf c n ∧ Extended (feeds.map Prod.fst) p p' ∧ (∀ f ∈ feeds, f.2 ≠ []) ∧
        (∀ f ∈ feeds,
          (p'.seqs f.1).blockTable.length = (p.seqs f.1).blockTable.length + p.missing c f) ∧
        (p.needed c feeds ≤ p.freeBlocks →
          p'.prefixes = p.prefixes ∧ p'.freeBlocks + p.needed c feeds = p.freeBlocks))
      (fun e p' => p'.Wf c n ∧ Extended (feeds.map Prod.fst) p p' ∧
        ((∀ f ∈ feeds, f.2 ≠ []) → p.freeBlocks < p.needed c feeds) ∧
        (p.needed c feeds ≤ p.freeBlocks → e ∉ BlockAllocator.errors ∧ p'.prefixes = p.prefixes ∧
          p'.freeBlocks + p.needed c (feeds.takeWhile fun f => f.2 ≠ []) = p.freeBlocks ∧
          ∀ f ∈ feeds,
            (p'.seqs f.1).blockTable.length ≤ (p.seqs f.1).blockTable.length + p.missing c f)) p := by
  induction feeds generalizing p total with
  | nil =>
    simp only [feedItems, List.map_nil, layoutItems, wp_pure]
    exact ⟨rfl, h, Extended.refl _ p, by simp, by simp, fun _ => ⟨trivial, rfl⟩⟩
  | cons f feeds ih =>
    obtain ⟨id, tokens⟩ := f
    have hid : id < n := hids _ List.mem_cons_self
    have hids' : ∀ g ∈ feeds, g.1 < n := fun g hg => hids g (List.mem_cons_of_mem _ hg)
    simp only [List.map_cons, List.nodup_cons] at hnodup
    simp only [feedItems, List.map_cons, layoutItems]
    by_cases hne : tokens = []
    · simp only [hne, if_true, wp_bind, wp_throw]
      refine ⟨h, Extended.refl _ p, fun hall => absurd rfl (hall _ List.mem_cons_self), fun _ =>
        ⟨by decide, trivial, ?_, fun _ _ => Nat.le_add_right _ _⟩⟩
      simp [needed]
    simp only [hne, if_false, wp_bind, wp_pure, wp_get]
    have hneeded : p.needed c ((id, tokens) :: feeds) = p.missing c (id, tokens) + p.needed c feeds := rfl
    refine wp_mono (wp_reserve tokens.length hid h) ?_ ?_
    · rintro _ q ⟨hq, new, hg, hnew, hfree⟩
      have hext : Extended (id :: feeds.map Prod.fst) p q := .of_grown hg List.mem_cons_self
      have hlength : (fun i => (q.seqs i).length) = fun i => (p.seqs i).length := funext hg.length
      have hself : ∀ g ∈ feeds, q.seqs g.1 = p.seqs g.1 := fun g hg' =>
        hg.others _ fun heq => hnodup.1 (heq ▸ List.mem_map_of_mem hg')
      have hmissing : ∀ g ∈ feeds, q.missing c g = p.missing c g := fun g hg' => by
        rw [missing, missing, hself g hg']
      have hrest : q.needed c feeds = p.needed c feeds := by
        rw [needed, needed, List.map_congr_left hmissing]
      refine wp_mono (ih hq hids' hnodup.2 (total + tokens.length)) ?_ ?_
      · rintro out q' ⟨rfl, hq', hext', hne', hblocks, hfree'⟩
        refine ⟨by rw [hlength]; rfl, hq', hext.trans (hext'.mono (List.subset_cons_self _ _)), ?_, ?_,
          fun hle => ?_⟩
        · rintro g (_ | ⟨_, hg'⟩)
          · exact hne
          · exact hne' g hg'
        · rintro g (_ | ⟨_, hg'⟩)
          · rw [hext'.others id hnodup.1, hg.self, List.length_append, hnew]
            rfl
          · rw [hblocks g hg', hself g hg', hmissing g hg']
        · rw [hneeded] at hle ⊢
          obtain ⟨hsame, hcount⟩ := hfree (by rw [hnew]; exact (Nat.le_add_right _ _).trans hle)
          change new.length = p.missing c (id, tokens) at hnew
          obtain ⟨hsame', hcount'⟩ := hfree' (by omega)
          exact ⟨hsame'.trans hsame, by omega⟩
      · rintro e q' ⟨hq', hext', hshort, hstopped⟩
        change new.length = p.missing c (id, tokens) at hnew
        refine ⟨hq', hext.trans (hext'.mono (List.subset_cons_self _ _)), fun hall => ?_, fun hle => ?_⟩
        · have hlt := hshort fun g hg' => hall g (List.mem_cons_of_mem _ hg')
          rw [hneeded]
          by_contra hge
          obtain ⟨-, hcount⟩ := hfree (by omega)
          omega
        · rw [hneeded] at hle
          obtain ⟨hsame, hcount⟩ := hfree (by omega)
          obtain ⟨he, hsame', hcount', hbound⟩ := hstopped (by omega)
          have hreached : q.needed c (feeds.takeWhile fun f => f.2 ≠ []) =
              p.needed c (feeds.takeWhile fun f => f.2 ≠ []) := by
            rw [needed, needed, List.map_congr_left fun g hg' =>
              hmissing g ((List.takeWhile_prefix _).subset hg')]
          have hstep : p.needed c (((id, tokens) :: feeds).takeWhile fun f => f.2 ≠ []) =
              p.missing c (id, tokens) + p.needed c (feeds.takeWhile fun f => f.2 ≠ []) := by
            rw [List.takeWhile_cons_of_pos (by simpa using hne)]
            rfl
          refine ⟨he, hsame'.trans hsame, by omega, ?_⟩
          rintro g (_ | ⟨_, hg'⟩)
          · rw [hext'.others id hnodup.1, hg.self, List.length_append, hnew]
          · have := hbound g hg'
            rwa [hself g hg', hmissing g hg'] at this
    · rintro e q ⟨hq, ⟨new, hg⟩, hshort⟩
      have hlt : p.freeBlocks < p.needed c ((id, tokens) :: feeds) := by
        rw [hneeded]
        exact hshort.trans_le (Nat.le_add_right _ _)
      exact ⟨hq, .of_grown hg List.mem_cons_self, fun _ => hlt, fun hle => absurd hle (Nat.not_le.mpr hlt)⟩

/-! ### The layers -/

/-- A slot that lies behind the committed rows of its sequence, in blocks it has. -/
structure BatchSlot.Fits (c : PoolSizes) (n : Nat) (p : Pool K) (slot : BatchSlot) : Prop where
  lt : slot.blocks < n
  past_eq : slot.past = (p.seqs slot.blocks).length
  le : slot.past + slot.len ≤ (p.seqs slot.blocks).blockTable.length * c.blockSize

theorem BatchSlot.Fits.stored {p' : Pool K} {slot : BatchSlot} (h : BatchSlot.Fits c n p slot)
    (hs : Stored c p p') : BatchSlot.Fits c n p' slot := by
  obtain ⟨hlt, hpast, hle⟩ := h
  rw [← hs.seqs] at hpast hle
  exact ⟨hlt, hpast, hle⟩

/-- One item stores its rows, and attends only when the heads divide. -/
theorem wp_attendItem_stored (h : p.Wf c n) {slot : BatchSlot} (hslot : BatchSlot.Fits c n p slot)
    (l : Nat) (q k v attn : Rows K) :
    wp (M.attendItem c l q k v attn slot)
      (fun _ p' => Stored c p p' ∧ M.config.numKeyValueHeads ≠ 0 ∧
        M.config.numAttentionHeads % M.config.numKeyValueHeads = 0)
      (fun e p' => Stored c p p' ∧ e ∉ BlockAllocator.errors) p := by
  have hs : Stored c p
      (p.write c slot.blocks l slot.past (k.drop slot.offset) (v.drop slot.offset) slot.len) :=
    h.stored_write hslot.lt hslot.past_eq.ge hslot.le
  simp only [attendItem, wp_bind, wp_modify, wp_get, wp_lift, wp_pure]
  exact ⟨fun attn hattn => ⟨hs, heads_of_attend hattn⟩, fun e he => ⟨hs, M.foreign_attend _ _ _ _ e he⟩⟩

theorem wp_layerBatch_stored (h : p.Wf c n) {slots : List BatchSlot} (hne : slots ≠ [])
    (hslots : ∀ slot ∈ slots, BatchSlot.Fits c n p slot) (positions : List Nat) (x : Rows K) (l : Nat)
    (hfound : M.FoundBelow l) :
    wp (M.layerBatch c slots positions x l) (fun _ p' => Stored c p p' ∧ M.FoundBelow (l + 1))
      (fun e p' => Stored c p p' ∧ e ∉ BlockAllocator.errors) p := by
  simp only [layerBatch, wp_bind, wp_lift]
  refine ⟨fun qkv hin => ?_, fun e he => ⟨Stored.refl c p, M.foreign_layerInputs _ _ _ e he⟩⟩
  have hloop := wp_foldlM (f := M.attendItem c l qkv.1 qkv.2.1 qkv.2.2)
    (I := fun todo (_ : Rows K) q => Stored c p q ∧ todo ⊆ slots ∧
      (todo = slots ∨ M.config.numKeyValueHeads ≠ 0 ∧
        M.config.numAttentionHeads % M.config.numKeyValueHeads = 0))
    (E := fun e q => Stored c p q ∧ e ∉ BlockAllocator.errors) ?_ slots
    (List.replicate positions.length []) p ⟨Stored.refl c p, List.Subset.refl _, .inl rfl⟩
  · refine wp_mono hloop ?_ fun _ _ hs => hs
    rintro attn q ⟨hs, -, hheads⟩
    refine ⟨fun y hy => ⟨hs, hfound.succ (block_of_layer hin hy) ?_⟩,
      fun e he => ⟨hs, M.foreign_layerOutput _ _ _ e he⟩⟩
    exact hheads.resolve_left fun heq => hne heq.symm
  · rintro slot todo attn q ⟨hs, hsub, -⟩
    have hslot := hslots slot (hsub List.mem_cons_self)
    refine wp_mono (wp_attendItem_stored (hs.wf h) (hslot.stored hs) l _ _ _ attn) ?_ ?_
    · rintro _ q' ⟨hs', hheads⟩
      exact ⟨hs.trans hs', fun x hx => hsub (List.mem_cons_of_mem slot hx), .inr hheads⟩
    · exact fun _ _ hs' => ⟨hs.trans hs'.1, hs'.2⟩

theorem wp_layers_stored (h : p.Wf c n) {slots : List BatchSlot} (hne : slots ≠ [])
    (hslots : ∀ slot ∈ slots, BatchSlot.Fits c n p slot) (positions : List Nat) (x : Rows K) :
    wp ((List.range M.config.numHiddenLayers).foldlM (M.layerBatch c slots positions) x)
      (fun _ p' => Stored c p p' ∧ M.FoundBelow M.config.numHiddenLayers)
      (fun e p' => Stored c p p' ∧ e ∉ BlockAllocator.errors) p := by
  refine wp_foldlM_range (I := fun l _ q => Stored c p q ∧ M.FoundBelow l)
    (E := fun e q => Stored c p q ∧ e ∉ BlockAllocator.errors) _ ?_ ⟨Stored.refl c p, FoundBelow.zero⟩
  rintro l x q - ⟨hs, hfound⟩
  refine wp_mono (wp_layerBatch_stored (hs.wf h) hne (fun slot hmem => (hslots slot hmem).stored hs)
    positions x l hfound) ?_ fun _ _ hs' => ⟨hs.trans hs'.1, hs'.2⟩
  exact fun _ _ hs' => ⟨hs.trans hs'.1, hs'.2⟩

/-! ### The whole batch -/

/-- The blocks that an item lacked hold its new rows. -/
theorem room_of_grown {q : Pool K} {f : Feed}
    (hgrown : (q.seqs f.1).blockTable.length = (p.seqs f.1).blockTable.length + p.missing c f) :
    (p.seqs f.1).length + f.2.length ≤ (q.seqs f.1).blockTable.length * c.blockSize := by
  rw [← c.blocksFor_le_iff, hgrown, missing]
  omega

theorem fits_of_extended {q : Pool K} {feeds : List Feed} (hids : ∀ f ∈ feeds, f.1 < n)
    (hext : Extended (feeds.map Prod.fst) p q)
    (hgrown : ∀ f ∈ feeds, (q.seqs f.1).blockTable.length = (p.seqs f.1).blockTable.length + p.missing c f) :
    ∀ slot ∈ slotsFrom (fun i => (p.seqs i).length) feeds 0, BatchSlot.Fits c n q slot := by
  intro slot hslot
  obtain ⟨f, hf, hid, hlen, hpast⟩ := mem_slotsFrom hslot
  refine ⟨hid ▸ hids f hf, ?_, ?_⟩
  · rw [hpast, hid, hext.length]
  · rw [hpast, hid, hlen]
    exact room_of_grown (hgrown f hf)

theorem wp_commits (past : Nat → Nat) (feeds : List Feed) (total : Nat) (p : Pool K)
    (E : Error → Pool K → Prop) :
    wp (forM (slotsFrom past feeds total) fun slot => modify fun p => p.commit slot.blocks slot.len)
      (fun _ p' => p' = p.commitAll feeds) E p := by
  induction feeds generalizing total p with
  | nil => rfl
  | cons f feeds ih =>
    simp only [slotsFrom, List.forM_cons, wp_bind, wp_modify]
    exact ih _ _

/-- **What `forward_batch` does to the pool.** A batch that returns has found every tensor, and a table
row for every token. -/
theorem wp_forwardBatch (h : p.Wf c n) {feeds : List Feed} (hids : ∀ f ∈ feeds, f.1 < n)
    (hnodup : (feeds.map Prod.fst).Nodup) :
    wp (M.forwardBatch c (feedItems feeds))
      (fun _ p' => p'.Wf c n ∧ Fed c feeds p p' ∧ M.Complete ∧ feeds ≠ [] ∧
        ∀ f ∈ feeds, f.2 ≠ [] ∧ ∀ t ∈ f.2, M.InVocab t)
      (fun e p' => p'.Wf c n ∧ Interrupted c feeds (M.weights normKey = none) e p p') p := by
  rw [forwardBatch]
  by_cases hfeeds : feeds = []
  · simp only [hfeeds, feedItems, List.map_nil, if_true, wp_bind, wp_throw]
    exact ⟨h, fun _ _ => rfl, fun _ => ⟨[], by simp⟩, .inl fun _ => rfl, List.Sublist.refl _,
      fun _ => ⟨by decide, rfl, rfl, by simp⟩⟩
  have hitems : feedItems feeds ≠ [] := by simpa [feedItems] using hfeeds
  simp only [hitems, if_false, wp_bind, wp_pure]
  refine wp_mono (wp_layoutItems h hids hnodup 0) ?_
    fun _ q hq => ⟨hq.1, hq.2.1.others, hq.2.1.table, .inl hq.2.1.length, hq.2.1.prefixes, hq.2.2.2⟩
  rintro _ q ⟨rfl, hq, he, hne, hblocks, hfree⟩
  have hreached : (feeds.takeWhile fun f => f.2 ≠ []) = feeds :=
    List.takeWhile_eq_self_iff.mpr fun f hf => by simpa using hne f hf
  -- what a batch that is given up behind the layout has done
  have hgiven : ∀ {e : Error} {r : Pool K}, Stored c q r → e ∉ BlockAllocator.errors →
      Interrupted c feeds (M.weights normKey = none) e p r := by
    intro e r hs hforeign
    have hseqs : ∀ i, r.seqs i = q.seqs i := fun i => by rw [hs.seqs]
    refine ⟨fun i hi => by rw [hseqs, he.others i hi], fun i => by rw [hseqs]; exact he.table i,
      .inl fun i => by rw [hseqs, he.length], by rw [hs.prefixes]; exact he.prefixes, fun hle => ?_⟩
    obtain ⟨hsame, hcount⟩ := hfree hle
    refine ⟨hforeign, hs.prefixes.trans hsame, ?_, fun f hf => by rw [hseqs, hblocks f hf]⟩
    rw [hreached, freeBlocks, hs.alloc]
    exact hcount
  simp only [wp_lift]
  refine ⟨fun embed hembed => ⟨fun x hx => ?_,
    fun e hx => ⟨hq, hgiven (.refl c q) (M.kernels.foreign_embedding _ _ e hx)⟩⟩,
    fun e hx => ⟨hq, hgiven (.refl c q) (M.foreign_get _ e hx)⟩⟩
  have hslots := fits_of_extended hids he hblocks
  have hslotsne : slotsFrom (fun i => (p.seqs i).length) feeds 0 ≠ [] := by
    obtain ⟨f, rest, rfl⟩ := List.exists_cons_of_ne_nil hfeeds
    exact List.cons_ne_nil _ _
  have hkept := he.kept h
  refine wp_mono (wp_layers_stored hq hslotsne hslots _ x) ?_ ?_
  · rintro x' r ⟨hs, hfound⟩
    refine wp_mono (wp_commits _ feeds 0 r (fun _ _ => False)) ?_ fun _ _ hf => hf.elim
    rintro _ p' rfl
    have hr := hs.wf hq
    obtain ⟨-, -, hcp, hca⟩ := commitAll_frame feeds r
    have hrseqs : ∀ i, r.seqs i = q.seqs i := fun i => by rw [hs.seqs]
    have hwf : (r.commitAll feeds).Wf c n := by
      refine hr.commitAll hids hnodup fun f hf => ?_
      rw [hrseqs, he.length]
      exact room_of_grown (hblocks f hf)
    have htable : ∀ i, ∃ new, ((r.commitAll feeds).seqs i).blockTable = (p.seqs i).blockTable ++ new := by
      intro i
      obtain ⟨new, hnew⟩ := he.table i
      exact ⟨new, by rw [commitAll_table, hrseqs, hnew]⟩
    have hothers : ∀ i, i ∉ feeds.map Prod.fst → (r.commitAll feeds).seqs i = p.seqs i := by
      intro i hi
      rw [commitAll_of_not_mem hi, hrseqs, he.others i hi]
    have hprefixes : (r.commitAll feeds).prefixes.Sublist p.prefixes := by
      rw [hcp, hs.prefixes]
      exact he.prefixes
    have hlength : ∀ f ∈ feeds,
        ((r.commitAll feeds).seqs f.1).length = (p.seqs f.1).length + f.2.length := by
      intro f hf
      rw [commitAll_length hnodup hf, hrseqs, he.length]
    have htaken : p.needed c feeds ≤ p.freeBlocks → (r.commitAll feeds).prefixes = p.prefixes ∧
        (r.commitAll feeds).freeBlocks + p.needed c feeds = p.freeBlocks := by
      intro hle
      obtain ⟨hsame, hcount⟩ := hfree hle
      exact ⟨by rw [hcp, hs.prefixes, hsame], by rw [freeBlocks, hca, hs.alloc]; exact hcount⟩
    refine ⟨fun normed hnormed => ?_, fun e hnone => ⟨hwf, hothers, htable, .inr ⟨?_, hlength⟩, hprefixes,
      fun hle => ⟨M.foreign_finalNorm _ e hnone, (htaken hle).1, by rw [hreached]; exact (htaken hle).2,
        fun f hf => by rw [commitAll_table, hrseqs, hblocks f hf]⟩⟩⟩
    · have hw := get_ok hembed
      refine ⟨hwf, ⟨?_, hothers, htable, hlength, fun f hf => ?_, hprefixes, htaken⟩,
        ⟨⟨embed, hw⟩, norm_of_finalNorm hnormed, hfound.1, hfound.2⟩, hfeeds, fun f hf => ⟨hne f hf,
          fun t ht => inVocab_of_embedding hw hx t (List.mem_flatMap.mpr ⟨f, hf, ht⟩)⟩⟩
      · exact (hkept.trans hs.kept).trans (kept_commitAll hnodup r)
      · rw [commitAll_table, hrseqs, hblocks f hf]
    · unfold finalNorm at hnone
      cases hw : M.weights normKey with
      | none => rfl
      | some w => simp [get_eq_of_some hw, bind, Except.bind, pure, Except.pure] at hnone
  · exact fun _ r hs => ⟨hs.1.wf hq, hgiven hs.1 hs.2⟩

end Model

end InferenceEngine
