import InferenceEngine.Model.Contents
import InferenceEngine.Model.Layout

/-!
# A failed batch commits nothing

A `forward_batch` that throws has grown tables and perhaps stored rows behind the committed ones. Both are
invisible: the committed rows stand, the blocks wait in the tables, and a later batch computes what it would
have computed anyway.
-/

namespace InferenceEngine

open Exec

namespace Pool

variable {K : Type} {c : PoolSizes} {n : Nat} {p p' : Pool K}

/-- What a batch given up before its commits leaves behind. -/
structure Dropped (c : PoolSizes) (n : Nat) (ids : List Nat) (p p' : Pool K) : Prop where
  wf : p'.Wf c n
  counted : p'.Counted c n
  kept : Kept c p p'
  length : ∀ i, (p'.seqs i).length = (p.seqs i).length
  table : ∀ i, ∃ new, (p'.seqs i).blockTable = (p.seqs i).blockTable ++ new
  others : ∀ i, i ∉ ids → p'.seqs i = p.seqs i
  prefixes : p'.prefixes.Sublist p.prefixes
  ahead : Ahead c n p p'

theorem Grew.ahead {ids : List Nat} (h : Grew c n ids p p') : Ahead c n p p' where
  table := h.extended.table
  backing := (h.extended.prefixes.map _).subset
  doubled := h.doubled
  sole hi hk hlen := h.wf.sole hi hk ((h.extended.length _).trans_le hlen)

theorem Grew.dropped {ids : List Nat} {q : Pool K} (hp : p.Wf c n) (h : Grew c n ids p q) (hs : Stored c q p')
    (hc : p'.Counted c n) : Dropped c n ids p p' where
  wf := hs.wf h.wf
  counted := hc
  kept := (h.extended.kept hp).trans hs.kept
  length i := by rw [hs.seqs, h.extended.length]
  table i := by
    rw [hs.seqs]
    exact h.extended.table i
  others i hi := by rw [hs.seqs, h.extended.others i hi]
  prefixes := by
    rw [hs.prefixes]
    exact h.extended.prefixes
  ahead := h.ahead.congr (fun i => by rw [hs.seqs]) hs.prefixes

theorem Dropped.contents {ids : List Nat} (h : Dropped c n ids p p') : p'.contents c = p.contents c := by
  funext layer id
  exact contents_congr (h.length id) (h.kept.committed id layer)

theorem Counted.commitAll (h : p.Counted c n) {feeds : List Feed} (hids : ∀ f ∈ feeds, f.1 < n) :
    (p.commitAll feeds).Counted c n := by
  induction feeds generalizing p with
  | nil => exact h
  | cons f feeds ih =>
    exact ih (h.commit (hids f List.mem_cons_self) f.2.length) fun g hg => hids g (List.mem_cons_of_mem _ hg)

end Pool

namespace Model

open Pool

variable {W Q K : Type} {M : Model W Q K} {c : PoolSizes} {n : Nat} {p : Pool K}

theorem wp_layers_of_write {I : Pool K → Prop}
    (hwrite : ∀ p id layer start k v len, I p → I (Pool.write c p id layer start k v len)) (h : I p)
    (slots : List BatchSlot) (positions : List Nat) (x : Rows K) (m : Nat) :
    wp ((List.range m).foldlM (M.layerBatch c slots positions) x) (fun _ => I) (fun _ => I) p := by
  apply wp_foldlM (I := fun _ _ => I) _ _ _ _ h
  intro l _ x q hq
  simp only [layerBatch, wp_bind, wp_lift]
  refine ⟨fun qkv _ => ?_, fun _ _ => hq⟩
  have hitems := wp_foldlM (f := M.attendItem c l qkv.1 qkv.2.1 qkv.2.2) (I := fun _ _ => I) (E := fun _ => I)
    (fun slot _ attn q hq => by
      simp only [attendItem, wp_bind, wp_modify, wp_get, wp_lift, wp_pure]
      exact ⟨fun _ _ => hwrite _ _ _ _ _ _ _ hq, fun _ _ => hwrite _ _ _ _ _ _ _ hq⟩)
    slots (List.replicate positions.length []) q hq
  apply wp_mono hitems
  · exact fun _ _ hq' => ⟨fun _ _ => hq', fun _ _ => hq'⟩
  · exact fun _ _ hq' => hq'

/-- What a batch that returns has computed, and the rows it has added. -/
structure Served (M : Model W Q K) (c : PoolSizes) (n : Nat) (feeds : List Feed) (logits : Rows K)
    (p p' : Pool K) : Prop where
  counted : p'.Counted c n
  logits_eq : M.batchOn (p.contents c) (fun i => (p.seqs i).length) feeds = .ok logits
  needed_le : p.needed c feeds ≤ p.supply.length
  ahead : Ahead c n p p'
  grown : ∀ embed x, M.embedOn feeds = .ok (embed, x) →
    ∀ slot ∈ slotsFrom (fun i => (p.seqs i).length) feeds 0, ∀ l < M.config.numHiddenLayers,
      p'.contents c l slot.blocks = p.contents c l slot.blocks ++
        M.grownRows (p.contents c) (slotsFrom (fun i => (p.seqs i).length) feeds 0)
          (positionsOf (fun i => (p.seqs i).length) feeds) x l slot

theorem map_blocks_slotsFrom (past : Nat → Nat) (feeds : List Feed) (total : Nat) :
    (slotsFrom past feeds total).map BatchSlot.blocks = feeds.map Prod.fst := by
  induction feeds generalizing total with
  | nil => rfl
  | cons f feeds ih => rw [slotsFrom, List.map_cons, List.map_cons, ih]

theorem finalNorm_error {x : Rows K} {e : Error} (h : M.finalNorm x = .error e) : M.get normKey = .error e := by
  unfold finalNorm at h
  cases hget : M.get normKey with
  | ok w => simp [hget, bind, Except.bind, pure, Except.pure] at h
  | error e' =>
    rw [hget] at h
    cases h
    rfl

theorem embedOn_of_get {feeds : List Feed} {embed : W} (hembed : M.get embedKey = .ok embed) :
    M.embedOn feeds = (M.kernels.embedding embed (feeds.flatMap Prod.snd)).map fun x => (embed, x) := by
  rw [embedOn, hembed]
  rfl

theorem batchOn_of_hidden {contents : Contents K} {past : Nat → Nat} {feeds : List Feed} {embed : W}
    {x x' : Rows K} (hstart : M.embedOn feeds = .ok (embed, x))
    (hx : M.hiddenOn contents (slotsFrom past feeds 0) (positionsOf past feeds) x M.config.numHiddenLayers =
      .ok x') :
    M.batchOn contents past feeds = (M.finalNorm x').map fun normed => M.lmHead embed
      ((slotsFrom past feeds 0).map fun slot => normed.getD (slot.offset + slot.len - 1) []) := by
  rw [batchOn, hstart]
  change (M.hiddenOn _ _ _ x _ >>= _) = _
  rw [hx]
  change (M.finalNorm x' >>= _) = _
  cases M.finalNorm x' <;> rfl

/-- **A batch over committed rows.** It throws for want of blocks, or with what the computation over the
committed rows throws. -/
theorem wp_forwardBatch_on (hw : p.Wf c n) (hc : p.Counted c n) {feeds : List Feed}
    (hids : ∀ f ∈ feeds, f.1 < n) (hnodup : (feeds.map Prod.fst).Nodup) :
    wp (M.forwardBatch c (feedItems feeds)) (fun logits p' => Served M c n feeds logits p p')
      (fun e p' => (Dropped c n (feeds.map Prod.fst) p p' ∨
          M.get normKey = .error e ∧ p'.Wf c n ∧ p'.Counted c n) ∧
        (feeds ≠ [] → (∀ f ∈ feeds, f.2 ≠ []) → p.supply.length < p.needed c feeds ∨
          M.batchOn (p.contents c) (fun i => (p.seqs i).length) feeds = .error e)) p := by
  have hdropped : ∀ {q r : Pool K}, Grew c n (feeds.map Prod.fst) p q → Stored c q r → r.Counted c n →
      Dropped c n (feeds.map Prod.fst) p r := fun hg hs hr => hg.dropped hw hs hr
  rw [forwardBatch]
  by_cases hfeeds : feeds = []
  · simp only [hfeeds, feedItems, List.map_nil, if_true, wp_bind, wp_throw]
    refine ⟨.inl ?_, fun hne => absurd rfl hne⟩
    exact (Grew.refl hw hc []).dropped hw (Stored.refl c p) hc
  have hitems : feedItems feeds ≠ [] := by simpa [feedItems] using hfeeds
  simp only [hitems, if_false, wp_bind, wp_pure]
  have hlayout := wp_and (wp_layoutItems hw hids hnodup 0) (wp_layoutItems_grew hw hc
    (by rwa [itemFeeds_feedItems]) (by rwa [itemFeeds_feedItems]) 0)
  rw [itemFeeds_feedItems] at hlayout
  apply wp_mono hlayout
  · intro out q hlaid
    obtain ⟨⟨hout, hq, hext, hne, hblocks, _⟩, hg, _, hneeded⟩ := hlaid
    subst hout
    have hcontents := hext.contents hw
    simp only [wp_lift]
    refine ⟨fun embed hembed => ⟨fun x hx => ?_, fun e hx => ?_⟩, fun e hembed => ?_⟩
    · have hstart : M.embedOn feeds = .ok (embed, x) := by
        rw [embedOn_of_get hembed, hx]
        rfl
      have hslots := fits_of_extended hids hext hblocks
      have hlayers := wp_and
        (wp_layers_on (M := M) (by rwa [map_blocks_slotsFrom]) hq hslots
          (positionsOf (fun i => (p.seqs i).length) feeds) x M.config.numHiddenLayers)
        (wp_layers_of_write (M := M) (c := c) (I := fun q => q.Counted c n)
          (fun p id layer start k v len h => Counted.write h id layer start k v len)
          hg.counted (slotsFrom (fun i => (p.seqs i).length) feeds 0)
          (positionsOf (fun i => (p.seqs i).length) feeds) x M.config.numHiddenLayers)
      rw [hcontents] at hlayers
      apply wp_mono hlayers
      · intro x' r hlayer
        obtain ⟨⟨hx', hr⟩, hcounted⟩ := hlayer
        apply wp_mono (wp_commits _ feeds 0 r (fun _ _ => False)) _ fun _ _ hf => hf.elim
        intro _ p' hp'
        subst hp'
        obtain ⟨hck, hcv, hcp, hca⟩ := commitAll_frame feeds r
        have hrseqs : ∀ i, r.seqs i = q.seqs i := fun i => by rw [hr.stored.seqs]
        have hcount := hcounted.commitAll hids
        have hbatch := batchOn_of_hidden hstart hx'
        constructor
        · intro normed hnormed
          have hahead : Ahead c n p (r.commitAll feeds) := by
            apply hg.ahead.congr (fun i => ?_) (hcp.trans hr.stored.prefixes)
            rw [commitAll_table, hrseqs]
          refine ⟨hcount, ?_, hneeded, hahead, fun embed' y hy slot hslot l hl => ?_⟩
          · rw [hbatch, hnormed]
            rfl
          · rw [hstart] at hy
            cases hy
            have hholds := hr.holds slot hslot l hl
            have hlen := hr.length slot hslot l hl
            rw [hcontents] at hholds hlen
            apply Holds.contents_eq
            · apply hholds.congr
              intro row _
              exact rowAt_congr hck hcv (commitAll_table feeds r slot.blocks) l row
            · obtain ⟨f, hf, hid, hflen, -⟩ := mem_slotsFrom hslot
              rw [List.length_append, length_contents, hlen, hid, hflen, commitAll_length hnodup hf, hrseqs,
                hext.length]
        · intro e hnone
          have hwf : (r.commitAll feeds).Wf c n := by
            apply (hr.stored.wf hq).commitAll hids hnodup
            intro f hf
            rw [hrseqs, hext.length]
            exact room_of_grown (hblocks f hf)
          refine ⟨.inr ⟨finalNorm_error hnone, hwf, hcount⟩, fun _ _ => .inr ?_⟩
          rw [hbatch, hnone]
          rfl
      · intro e r hlayer
        obtain ⟨⟨herror, hs⟩, hcounted⟩ := hlayer
        refine ⟨.inl (hdropped hg hs hcounted), fun _ _ => .inr ?_⟩
        rw [batchOn, hstart]
        change (M.hiddenOn _ _ _ x _ >>= _) = _
        rw [herror]
        rfl
    · refine ⟨.inl (hdropped hg (.refl c q) hg.counted), fun _ _ => .inr ?_⟩
      rw [batchOn, embedOn_of_get hembed, hx]
      rfl
    · refine ⟨.inl (hdropped hg (.refl c q) hg.counted), fun _ _ => .inr ?_⟩
      rw [batchOn, embedOn, hembed]
      rfl
  · intro e q hlaid
    obtain ⟨_, hg, hshort⟩ := hlaid
    exact ⟨.inl (hdropped hg (.refl c q) hg.counted), fun _ hall => .inl (hshort rfl hall)⟩

theorem wp_forwardBatch_null (hw : p.Wf c n) (hc : p.Counted c n) {items : List BatchItem}
    (hids : ∀ f ∈ itemFeeds items, f.1 < n) (hnodup : ((itemFeeds items).map Prod.fst).Nodup)
    (hnull : items ≠ feedItems (itemFeeds items)) :
    wp (M.forwardBatch c items) (fun _ _ => False)
      (fun _ p' => Dropped c n ((itemFeeds items).map Prod.fst) p p') p := by
  have hne : items ≠ [] := by
    intro hnil
    rw [hnil] at hnull
    exact hnull rfl
  rw [forwardBatch]
  simp only [hne, if_false, wp_bind, wp_pure]
  apply wp_mono (wp_layoutItems_grew hw hc hids hnodup 0)
  · intro _ q hout
    exact absurd hout.2.1 hnull
  · intro e q hout
    exact hout.1.dropped hw (Stored.refl c q) hout.1.counted

/-- What a caller may hand to `forward_batch`: distinct sequences. -/
structure ValidItems (n : Nat) (items : List BatchItem) : Prop where
  lt : ∀ f ∈ itemFeeds items, f.1 < n
  nodup : ((itemFeeds items).map Prod.fst).Nodup

/-- A batch that throws was given up before its commits, unless it is the last norm that is missing. -/
theorem dropped_of_error (hw : p.Wf c n) (hc : p.Counted c n) {items : List BatchItem}
    (hvalid : ValidItems n items) {e : Error} {p' : Pool K} (hrun : M.forwardBatch c items p = .error e p')
    (he : M.get normKey ≠ .error e) : Dropped c n ((itemFeeds items).map Prod.fst) p p' := by
  by_cases hitems : items = feedItems (itemFeeds items)
  · rw [hitems] at hrun
    exact (wp_error (wp_forwardBatch_on hw hc hvalid.lt hvalid.nodup) hrun).1.resolve_right fun h => he h.1
  · have hnull := wp_forwardBatch_null (M := M) hw hc hvalid.lt hvalid.nodup hitems
    have hdropped := wp_error hnull hrun
    exact hdropped

theorem feedItems_of_ok (hw : p.Wf c n) (hc : p.Counted c n) {items : List BatchItem}
    (hvalid : ValidItems n items) {logits : Rows K} {p' : Pool K}
    (hrun : M.forwardBatch c items p = .ok logits p') : items = feedItems (itemFeeds items) := by
  by_contra hitems
  exact wp_ok (wp_forwardBatch_null hw hc hvalid.lt hvalid.nodup hitems) hrun

/-! ### The same run without the dropped batches -/

/-- `p'` is `p` with the blocks that dropped batches took, less the cached ones they evicted. The entries `kept` are
the same in both. -/
structure Burdened (M : Model W Q K) (c : PoolSizes) (n : Nat) (kept : List Link) (p p' : Pool K) : Prop where
  wf : p.Wf c n
  counted : p.Counted c n
  wf' : p'.Wf c n
  counted' : p'.Counted c n
  length : ∀ i, (p'.seqs i).length = (p.seqs i).length
  contents : ∀ l < M.config.numHiddenLayers, p'.contents c l = p.contents c l
  table_le : ∀ i, (p.seqs i).blockTable.length ≤ (p'.seqs i).blockTable.length
  cells : ∀ {x b b'}, x ∈ kept → (x, b) ∈ p.backing → (x, b') ∈ p'.backing →
    ∀ l < M.config.numHiddenLayers, ∀ slot < c.blockSize, p'.blockCell c l b' slot = p.blockCell c l b slot
  alike : Alike c n kept p p'

theorem Burdened.refl (M : Model W Q K) (hw : p.Wf c n) (hc : p.Counted c n) : Burdened M c n p.links p p where
  wf := hw
  counted := hc
  wf' := hw
  counted' := hc
  length _ := rfl
  contents _ _ := rfl
  table_le _ := le_rfl
  cells hx hb hb' _ _ _ _ := by rw [hc.links.backing_unique hb hb']
  alike := Alike.refl c n hc.links

theorem Burdened.supply {kept : List Link} {p' : Pool K} (h : Burdened M c n kept p p') :
    p'.supply.length + p'.tableBlocks n = p.supply.length + p.tableBlocks n :=
  h.alike.supply h.wf h.counted h.wf' h.counted' h.length h.table_le

/-- The cached blocks of a pool with their cells are those of an earlier one. -/
theorem backing_of_kept {p' : Pool K} (h : Kept c p p') {x : Link} {b : Nat} (hb : (x, b) ∈ p'.backing) :
    (x, b) ∈ p.backing ∧
      ∀ layer slot, slot < c.blockSize → p'.blockCell c layer b slot = p.blockCell c layer b slot := by
  obtain ⟨e, he, heq⟩ := List.mem_map.mp hb
  rw [Prod.mk.injEq] at heq
  obtain ⟨rfl, rfl⟩ := heq
  obtain ⟨hmem, hcell⟩ := h.cached e he
  exact ⟨List.mem_map_of_mem hmem, hcell⟩

/-- Sequences have grown in both pools, or in one of them, by the same rows. -/
theorem Burdened.grow {kept : List Link} {p' q q' : Pool K} (h : Burdened M c n kept p p') (hw : q.Wf c n)
    (hc : q.Counted c n) (hw' : q'.Wf c n) (hc' : q'.Counted c n) (hk : Kept c p q) (hk' : Kept c p' q')
    (ha : Ahead c n p q) (ha' : Ahead c n p' q') (hlength : ∀ i, (q'.seqs i).length = (q.seqs i).length)
    (hcontents : ∀ l < M.config.numHiddenLayers, q'.contents c l = q.contents c l)
    (htable : ∀ i, (q.seqs i).blockTable.length ≤ (q'.seqs i).blockTable.length) :
    Burdened M c n (keptAfter kept p p' q q') q q' where
  wf := hw
  counted := hc
  wf' := hw'
  counted' := hc'
  length := hlength
  contents := hcontents
  table_le := htable
  cells {x b b'} hx hb hb' l hl slot hslot := by
    obtain ⟨hold, hcell⟩ := backing_of_kept hk hb
    obtain ⟨hold', hcell'⟩ := backing_of_kept hk' hb'
    obtain ⟨-, hkept, -⟩ := mem_keptAfter.mp hx
    have hx := hkept.resolve_right fun hnew => hnew.1 (mem_links.mpr ⟨b, hold⟩)
    rw [hcell l slot hslot, hcell' l slot hslot, h.cells hx hold hold' l hl slot hslot]
  alike := h.alike.ahead h.wf h.length h.table_le ha ha'

theorem Burdened.drop {kept : List Link} {p' p'' : Pool K} {ids : List Nat} (h : Burdened M c n kept p p')
    (hd : Dropped c n ids p' p'') : Burdened M c n (keptAfter kept p p' p p'') p p'' := by
  apply h.grow h.wf h.counted hd.wf hd.counted (Kept.refl c p) hd.kept h.wf.ahead hd.ahead
  · exact fun i => (hd.length i).trans (h.length i)
  · intro l hl
    rw [hd.contents, h.contents l hl]
  · intro i
    obtain ⟨new, hnew⟩ := hd.table i
    rw [hnew, List.length_append]
    exact (h.table_le i).trans (Nat.le_add_right _ _)

/-- The batch lacks no more blocks than it did, beyond those its own sequences were given. -/
theorem Burdened.needed_le {kept : List Link} {p' : Pool K} (h : Burdened M c n kept p p') {feeds : List Feed}
    (hids : ∀ f ∈ feeds, f.1 < n) (hnodup : (feeds.map Prod.fst).Nodup) :
    p.needed c feeds + p.tableBlocks n ≤ p'.needed c feeds + p'.tableBlocks n := by
  have hone : ∀ f : Feed, p.missing c f ≤
      p'.missing c f + ((p'.seqs f.1).blockTable.length - (p.seqs f.1).blockTable.length) := by
    intro f
    rw [missing, missing, h.length]
    omega
  have hfeeds : (feeds.map fun f => (p'.seqs f.1).blockTable.length - (p.seqs f.1).blockTable.length).sum ≤
      ∑ i ∈ Finset.range n, ((p'.seqs i).blockTable.length - (p.seqs i).blockTable.length) := by
    have hsub : (feeds.map Prod.fst).toFinset ⊆ Finset.range n := by
      intro i hi
      obtain ⟨f, hf, rfl⟩ := List.mem_map.mp (List.mem_toFinset.mp hi)
      exact Finset.mem_range.mpr (hids f hf)
    apply le_trans _ (Finset.sum_le_sum_of_subset hsub)
    rw [List.sum_toFinset _ hnodup, List.map_map]
    rfl
  have htables : ∑ i ∈ Finset.range n, ((p'.seqs i).blockTable.length - (p.seqs i).blockTable.length) +
      p.tableBlocks n = p'.tableBlocks n := by
    rw [tableBlocks, tableBlocks, ← Finset.sum_add_distrib]
    exact Finset.sum_congr rfl fun i _ => Nat.sub_add_cancel (h.table_le i)
  have hsum : p.needed c feeds ≤ p'.needed c feeds +
      (feeds.map fun f => (p'.seqs f.1).blockTable.length - (p.seqs f.1).blockTable.length).sum := by
    rw [needed, needed, ← List.sum_map_add]
    exact List.sum_le_sum fun f _ => hone f
  omega

theorem contents_of_fed {feeds : List Feed} {p' : Pool K} (h : Fed c feeds p p') {i : Nat}
    (hi : i ∉ feeds.map Prod.fst) (l : Nat) : p'.contents c l i = p.contents c l i :=
  contents_congr (by rw [h.others i hi]) (h.kept.committed i l)

theorem embedOn_of_batchOn {contents : Contents K} {past : Nat → Nat} {feeds : List Feed} {logits : Rows K}
    (h : M.batchOn contents past feeds = .ok logits) : ∃ embed x, M.embedOn feeds = .ok (embed, x) := by
  cases hstart : M.embedOn feeds with
  | ok start => exact ⟨start.1, start.2, rfl⟩
  | error e =>
    rw [batchOn, hstart] at h
    cases h

/-- Two batches that return add the same rows. -/
theorem Burdened.fed {kept : List Link} {p' q q' : Pool K} (h : Burdened M c n kept p p') {feeds : List Feed}
    {logits : Rows K} (hw : q.Wf c n) (hw' : q'.Wf c n) (hf : Fed c feeds p q) (hf' : Fed c feeds p' q')
    (hs : Served M c n feeds logits p q) (hs' : Served M c n feeds logits p' q') :
    Burdened M c n (keptAfter kept p p' q q') q q' := by
  apply h.grow hw hs.counted hw' hs'.counted hf.kept hf'.kept hs.ahead hs'.ahead
  · intro i
    by_cases hi : i ∈ feeds.map Prod.fst
    · obtain ⟨f, hmem, rfl⟩ := List.mem_map.mp hi
      rw [hf.length f hmem, hf'.length f hmem, h.length]
    · rw [hf.others i hi, hf'.others i hi, h.length]
  · intro l hl
    funext i
    by_cases hi : i ∈ feeds.map Prod.fst
    · obtain ⟨embed, x, hstart⟩ := embedOn_of_batchOn hs.logits_eq
      have hpast : (fun i => (p'.seqs i).length) = fun i => (p.seqs i).length := funext h.length
      have hgrown' := hs'.grown embed x hstart
      rw [hpast] at hgrown'
      rw [← map_blocks_slotsFrom (fun i => (p.seqs i).length) feeds 0] at hi
      obtain ⟨slot, hslot, rfl⟩ := List.mem_map.mp hi
      rw [hs.grown embed x hstart slot hslot l hl, hgrown' slot hslot l hl, h.contents l hl,
        grownRows_congr fun j hj => h.contents j (hj.trans hl)]
    · rw [contents_of_fed hf hi, contents_of_fed hf' hi, h.contents l hl]
  · intro i
    have hle := h.table_le i
    by_cases hi : i ∈ feeds.map Prod.fst
    · obtain ⟨f, hmem, rfl⟩ := List.mem_map.mp hi
      rw [hf.blocks f hmem, hf'.blocks f hmem, missing, missing, h.length]
      omega
    · rw [hf.others i hi, hf'.others i hi]
      exact hle

/-- A batch that returns with the dropped batches returns the same without them. -/
theorem Burdened.serve {kept : List Link} {p' q' : Pool K} (h : Burdened M c n kept p p') {items : List BatchItem}
    (hvalid : ValidItems n items) {logits : Rows K} (hrun : M.forwardBatch c items p' = .ok logits q') :
    ∃ q, M.forwardBatch c items p = .ok logits q ∧ Burdened M c n (keptAfter kept p p' q q') q q' := by
  have hitems := feedItems_of_ok h.wf' h.counted' hvalid hrun
  rw [hitems] at hrun ⊢
  obtain ⟨hlt, hnodup⟩ := hvalid
  generalize itemFeeds items = feeds at hrun hlt hnodup ⊢
  obtain ⟨hw', hf', -, hne, htokens⟩ := wp_ok (wp_forwardBatch h.wf' hlt hnodup) hrun
  have hs' := wp_ok (wp_forwardBatch_on h.wf' h.counted' hlt hnodup) hrun
  have hlogits : M.batchOn (p.contents c) (fun i => (p.seqs i).length) feeds = .ok logits := by
    have hpast : (fun i => (p'.seqs i).length) = fun i => (p.seqs i).length := funext h.length
    rw [← hs'.logits_eq, hpast, batchOn_congr h.contents]
  have hroom : p.needed c feeds ≤ p.supply.length := by
    have hle := h.needed_le hlt hnodup
    have hsupply := h.supply
    have hneeded := hs'.needed_le
    omega
  have hpost := wp_forwardBatch_on (M := M) h.wf h.counted hlt hnodup
  cases hrun' : M.forwardBatch c (feedItems feeds) p with
  | ok logits' q =>
    have hs := wp_ok hpost hrun'
    have hsame := hs.logits_eq
    rw [hlogits, Except.ok.injEq] at hsame
    subst hsame
    obtain ⟨hw, hf, -⟩ := wp_ok (wp_forwardBatch h.wf hlt hnodup) hrun'
    exact ⟨q, rfl, h.fed hw hw' hf hf' hs hs'⟩
  | error e q =>
    obtain hshort | herror := (wp_error hpost hrun').2 hne fun f hf => (htokens f hf).1
    · exact absurd hroom (Nat.not_le.mpr hshort)
    · rw [hlogits] at herror
      cases herror

end Model

end InferenceEngine
