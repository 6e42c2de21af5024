import InferenceEngine.Model.Batch

/-!
# The batched forward computes the plain forward

The flat rows of a batch are the rows of its sequences, one sequence after another: layer by layer,
every item's part is what the causal decoder computes for its new tokens, because the keys and values
gathered for it are those of all its tokens.
-/

namespace InferenceEngine

open Exec

theorem zipWith_flatMap {F A B C : Type} (z : A → B → C) {g : F → List A} {h : F → List B} {fs : List F}
    (hlen : ∀ f ∈ fs, (g f).length = (h f).length) :
    List.zipWith z (fs.flatMap g) (fs.flatMap h) = fs.flatMap fun f => List.zipWith z (g f) (h f) := by
  induction fs with
  | nil => rfl
  | cons f fs ih =>
    simp only [List.flatMap_cons]
    rw [List.zipWith_append (hlen f List.mem_cons_self),
      ih fun f hf => hlen f (List.mem_cons_of_mem _ hf)]

theorem getLastD_map {A B : Type} (f : A → B) {xs : List A} (hne : xs ≠ []) (a : A) (b : B) :
    (xs.map f).getLastD b = f (xs.getLastD a) := by
  rw [List.getLastD_eq_getLast?, List.getLastD_eq_getLast?, List.getLast?_map,
    List.getLast?_eq_some_getLast hne]
  rfl

/-- The last row of logits has an entry for every token of the vocabulary. -/
theorem Model.length_lastLogits {W Q K : Type} {M : Model W Q K} (hM : M.Complete) (hmatch : M.Matches)
    {ids : List Int} (hne : ids ≠ []) :
    ((M.logits ids).getLastD []).length = M.config.vocabSize := by
  obtain ⟨embed, hembed⟩ := hM.embed
  obtain ⟨norm, hnorm⟩ := hM.norm
  have hrows : M.decoder.hidden M.config.numHiddenLayers ids ≠ [] := by
    apply List.ne_nil_of_length_pos
    rw [Causal.Decoder.length_hidden]
    exact List.length_pos_iff.mpr hne
  rw [Model.logits, getLastD_map M.logitsRow hrows [] []]
  simp only [Model.logitsRow, hembed, hnorm]
  exact hmatch.head_length embed hembed _

namespace Model

open Pool

variable {W Q K : Type} {M : Model W Q K} {c : PoolSizes} {n : Nat} {p : Pool K}

/-- The rows entering layer `l` that belong to the new tokens `f.2`, after the tokens `fed f.1`. -/
def tailRows (M : Model W Q K) (fed : Nat → List Int) (l : Nat) (f : Feed) : Rows K :=
  (M.decoder.hidden l (fed f.1 ++ f.2)).drop (fed f.1).length

@[simp] theorem length_tailRows (fed : Nat → List Int) (l : Nat) (f : Feed) :
    (M.tailRows fed l f).length = f.2.length := by
  simp [tailRows]

/-- The attention rows of an item. -/
def tailAttn (M : Model W Q K) (fed : Nat → List Int) (l : Nat) (f : Feed) : Rows K :=
  (M.decoder.block l).attendFrom (fed f.1).length (M.decoder.keys l (fed f.1 ++ f.2))
    (M.decoder.values l (fed f.1 ++ f.2)) (M.tailRows fed l f)

@[simp] theorem length_tailAttn (fed : Nat → List Int) (l : Nat) (f : Feed) :
    (M.tailAttn fed l f).length = f.2.length := by
  simp [tailAttn]

theorem tailRows_succ (fed : Nat → List Int) (l : Nat) (f : Feed) :
    M.tailRows fed (l + 1) f =
      List.zipWith (M.decoder.block l).finish (M.tailRows fed l f) (M.tailAttn fed l f) :=
  M.decoder.hidden_succ_drop l _ _

theorem getLastD_logits (fed : Nat → List Int) {f : Feed} (hne : f.2 ≠ []) :
    (M.logits (fed f.1 ++ f.2)).getLastD [] =
      M.logitsRow ((M.tailRows fed M.config.numHiddenLayers f).getLastD []) := by
  have htail : M.tailRows fed M.config.numHiddenLayers f ≠ [] := by
    rw [← List.length_pos_iff, length_tailRows]
    exact List.length_pos_iff.mpr hne
  have hmap : (M.tailRows fed M.config.numHiddenLayers f).map M.logitsRow ≠ [] := by simpa using htail
  rw [logits_append, List.getLastD_eq_getLast?, ← tailRows, List.getLast?_append_of_ne_nil _ hmap,
    ← List.getLastD_eq_getLast?, getLastD_map _ htail []]

/-! ### Storing and gathering -/

/-- One item of a layer: its rows are stored behind the others, all its rows are gathered, and its part
of the attention is written. -/
theorem wp_attendItem {l : Nat} {B : Causal.Block (Row K)} (hB : M.block l = .ok B)
    (hdec : M.decoder.block l = B) (hheads : M.config.numKeyValueHeads ≠ 0 ∧
      M.config.numAttentionHeads % M.config.numKeyValueHeads = 0)
    (h : p.Wf c n) (fed : Nat → List Int) {f : Feed} (hid : f.1 < n)
    (hpast : (p.seqs f.1).length = (fed f.1).length)
    (hroom : (fed f.1).length + f.2.length ≤ (p.seqs f.1).blockTable.length * c.blockSize)
    (hholds : p.Holds c l f.1 (M.decoder.cells l (fed f.1))) {total : Nat} {q k v attn : Rows K}
    (hq : sliceRows q total f.2.length =
      (M.tailRows fed l f).mapIdx fun i x => B.query ((fed f.1).length + i) x)
    (hk : sliceRows k total f.2.length = B.keysFrom (fed f.1).length (M.tailRows fed l f))
    (hv : sliceRows v total f.2.length = B.valuesFrom (fed f.1).length (M.tailRows fed l f)) :
    wp (M.attendItem c l q k v attn ⟨f.1, total, f.2.length, (fed f.1).length⟩)
      (fun attn' p' => attn' = copyRows attn total (M.tailAttn fed l f) ∧
        p' = p.write c f.1 l (fed f.1).length (k.drop total) (v.drop total) f.2.length ∧
        p'.Holds c l f.1 (M.decoder.cells l (fed f.1 ++ f.2)))
      (fun _ _ => False) p := by
  simp only [attendItem, wp_bind, wp_modify, wp_get]
  generalize hp' : p.write c f.1 l (fed f.1).length (k.drop total) (v.drop total) f.2.length = p'
  have hcells := M.decoder.cells_append l (fed f.1) f.2
  rw [hdec] at hcells
  change _ = _ ++ (B.keysFrom _ (M.tailRows fed l f)).zip (B.valuesFrom _ (M.tailRows fed l f)) at hcells
  have hrow : ∀ (src : Rows K) {j : Nat}, j < f.2.length →
      (src.drop total).getD j [] = (sliceRows src total f.2.length).getD j [] := by
    intro src j hj
    rw [sliceRows, List.getD_eq_getElem?_getD, List.getD_eq_getElem?_getD, List.getElem?_take_of_lt hj]
  have hall : p'.Holds c l f.1 (M.decoder.cells l (fed f.1 ++ f.2)) := by
    rw [hcells, ← hp']
    apply Holds.write h hid hpast.le hroom hholds (by simp) (by simp)
    intro j hj
    rw [hrow k hj, hrow v hj, hk, hv, List.getElem?_eq_getElem (by simpa using hj)]
    simp [List.getD_eq_getElem?_getD, hj]
  obtain ⟨hgk, hgv⟩ := hall.gather (m := (fed f.1).length + f.2.length) (by simp)
  rw [Causal.Decoder.map_fst_cells] at hgk
  rw [Causal.Decoder.map_snd_cells] at hgv
  have hattend : M.attend ((M.tailRows fed l f).mapIdx fun i x => B.query ((fed f.1).length + i) x)
      (M.decoder.keys l (fed f.1 ++ f.2)) (M.decoder.values l (fed f.1 ++ f.2)) (fed f.1).length =
      .ok (M.tailAttn fed l f) := by
    rw [attend_eq hB (by simp) hheads (by simp), tailAttn, hdec, Causal.Block.attendFrom,
      List.mapIdx_mapIdx]
    rfl
  simp only [hq, hgk, hgv, hattend, wp_lift_ok, wp_pure]
  exact ⟨trivial, trivial, hall⟩

theorem sliceRows_of_drop_eq {R : Type} {x a b : List R} {total m : Nat} (h : x.drop total = a ++ b)
    (hm : a.length = m) : sliceRows x total m = a ∧ x.drop (total + m) = b := by
  constructor
  · rw [sliceRows, h, List.take_left' hm]
  · rw [← List.drop_drop, h, List.drop_left' hm]

theorem take_copyRows {R : Type} {x src : List R} {off : Nat} (h : off ≤ x.length) :
    (copyRows x off src).take (off + src.length) = x.take off ++ src := by
  rw [copyRows, List.take_left']
  simp [h]

theorem length_copyRows {R : Type} {x src : List R} {off : Nat} (h : off + src.length ≤ x.length) :
    (copyRows x off src).length = x.length := by
  simp only [copyRows, List.length_append, List.length_take, List.length_drop]
  omega

theorem wp_attendItems {l : Nat} {B : Causal.Block (Row K)} (hB : M.block l = .ok B)
    (hdec : M.decoder.block l = B) (hheads : M.config.numKeyValueHeads ≠ 0 ∧
      M.config.numAttentionHeads % M.config.numKeyValueHeads = 0)
    (fed : Nat → List Int) {q k v : Rows K} {feeds : List Feed} (h : p.Wf c n)
    (hids : ∀ f ∈ feeds, f.1 < n) (hnodup : (feeds.map Prod.fst).Nodup)
    (hpast : ∀ f ∈ feeds, (p.seqs f.1).length = (fed f.1).length)
    (hroom : ∀ f ∈ feeds,
      (fed f.1).length + f.2.length ≤ (p.seqs f.1).blockTable.length * c.blockSize)
    (hholds : ∀ f ∈ feeds, p.Holds c l f.1 (M.decoder.cells l (fed f.1))) {total : Nat} {attn : Rows K}
    (hattn : attn.length = total + (feeds.flatMap Prod.snd).length)
    (hq : q.drop total = feeds.flatMap fun f =>
      (M.tailRows fed l f).mapIdx fun i x => B.query ((fed f.1).length + i) x)
    (hk : k.drop total = feeds.flatMap fun f => B.keysFrom (fed f.1).length (M.tailRows fed l f))
    (hv : v.drop total = feeds.flatMap fun f => B.valuesFrom (fed f.1).length (M.tailRows fed l f)) :
    wp ((slotsFrom (fun i => (fed i).length) feeds total).foldlM (M.attendItem c l q k v) attn)
      (fun attn' p' => attn' = attn.take total ++ feeds.flatMap (M.tailAttn fed l) ∧ Stored c p p' ∧
        (∀ j, j ≠ l → ∀ x, p'.cell j x = p.cell j x) ∧
        (∀ f ∈ feeds, p'.Holds c l f.1 (M.decoder.cells l (fed f.1 ++ f.2))) ∧
        ∀ i < n, i ∉ feeds.map Prod.fst → ∀ r < (p.seqs i).blockTable.length * c.blockSize,
          p'.rowAt c l i r = p.rowAt c l i r)
      (fun _ _ => False) p := by
  induction feeds generalizing total attn p with
  | nil =>
    refine ⟨?_, Stored.refl c p, fun _ _ _ => rfl, by simp, fun _ _ _ _ _ => rfl⟩
    rw [List.flatMap_nil, List.append_nil, List.take_of_length_le (by simp [hattn])]
  | cons f feeds ih =>
    have hmem : f ∈ f :: feeds := List.mem_cons_self
    have hsub : ∀ g ∈ feeds, g ∈ f :: feeds := fun g hg => List.mem_cons_of_mem _ hg
    simp only [List.map_cons, List.nodup_cons] at hnodup
    simp only [List.flatMap_cons] at hattn hq hk hv
    rw [List.length_append] at hattn
    obtain ⟨hq1, hq2⟩ := sliceRows_of_drop_eq hq (m := f.2.length) (by simp)
    obtain ⟨hk1, hk2⟩ := sliceRows_of_drop_eq hk (m := f.2.length) (by simp)
    obtain ⟨hv1, hv2⟩ := sliceRows_of_drop_eq hv (m := f.2.length) (by simp)
    simp only [slotsFrom, List.foldlM_cons, wp_bind]
    refine wp_mono (wp_attendItem hB hdec hheads h fed (hids f hmem) (hpast f hmem) (hroom f hmem)
      (hholds f hmem) hq1 hk1 hv1) ?_ fun _ _ hf => hf
    rintro attn' r ⟨rfl, hr, hholds'⟩
    have hs : Stored c p r := by
      rw [hr]
      exact h.stored_write (hids f hmem) (hpast f hmem).le (hroom f hmem)
    have hne : ∀ g ∈ feeds, g.1 ≠ f.1 := fun g hg heq => hnodup.1 (heq ▸ List.mem_map_of_mem hg)
    -- the write leaves the rows of the other sequences alone
    have hother : ∀ i < n, i ≠ f.1 → ∀ x < (p.seqs i).blockTable.length * c.blockSize,
        r.rowAt c l i x = p.rowAt c l i x := by
      intro i hi hif x hx
      rw [hr]
      exact write_rowAt_of_ne h (hids f hmem) (hpast f hmem).le (hroom f hmem) hi hx (.inl hif) l
    have hlen : (M.tailAttn fed l f).length = f.2.length := length_tailAttn fed l f
    refine wp_mono (ih (hs.wf h) (fun g hg => hids g (hsub g hg)) hnodup.2
      (fun g hg => by rw [hs.seqs]; exact hpast g (hsub g hg))
      (fun g hg => by rw [hs.seqs]; exact hroom g (hsub g hg))
      (fun g hg => (hholds g (hsub g hg)).congr fun x hx => hother g.1 (hids g (hsub g hg)) (hne g hg) x ?_)
      ?_ hq2 hk2 hv2) ?_ fun _ _ hf => hf
    · have := hroom g (hsub g hg)
      rw [Causal.Decoder.length_cells] at hx
      omega
    · rw [length_copyRows (by omega)]
      omega
    · rintro attn' r' ⟨rfl, hs', hcell, hall, hrows⟩
      refine ⟨?_, hs.trans hs', fun j hj x => ?_, ?_, fun i hi hni x hx => ?_⟩
      · rw [← hlen, take_copyRows (by omega), List.flatMap_cons, List.append_assoc]
      · rw [hcell j hj, hr, write_cell_of_layer_ne hj]
      · rintro g (_ | ⟨_, hg⟩)
        · refine hholds'.congr fun x hx => hrows f.1 (hids f hmem) hnodup.1 x ?_
          rw [hs.seqs]
          refine lt_of_lt_of_le ?_ (hroom f hmem)
          simpa using hx
        · exact hall g hg
      · simp only [List.map_cons, List.mem_cons, not_or] at hni
        rw [hrows i hi hni.2 x (by rwa [hs.seqs]), hother i hi hni.1 x hx]

/-! ### The layers -/

theorem slotsFrom_congr {past past' : Nat → Nat} {feeds : List Feed}
    (h : ∀ f ∈ feeds, past f.1 = past' f.1) (total : Nat) :
    slotsFrom past feeds total = slotsFrom past' feeds total := by
  induction feeds generalizing total with
  | nil => rfl
  | cons f feeds ih =>
    rw [slotsFrom, slotsFrom, h f List.mem_cons_self, ih fun g hg => h g (List.mem_cons_of_mem _ hg)]

theorem positionsOf_congr {past past' : Nat → Nat} {feeds : List Feed}
    (h : ∀ f ∈ feeds, past f.1 = past' f.1) : positionsOf past feeds = positionsOf past' feeds := by
  induction feeds with
  | nil => rfl
  | cons f feeds ih =>
    have hrest := ih fun g hg => h g (List.mem_cons_of_mem _ hg)
    simp only [positionsOf, List.flatMap_cons, h f List.mem_cons_self] at hrest ⊢
    rw [hrest]

theorem zipWith_positionsOf {A : Type} (z : Nat → Row K → A) (past : Nat → Nat) {feeds : List Feed}
    {g : Feed → Rows K} (hlen : ∀ f, (g f).length = f.2.length) :
    List.zipWith z (positionsOf past feeds) (feeds.flatMap g) =
      feeds.flatMap fun f => (g f).mapIdx fun i x => z (past f.1 + i) x := by
  rw [positionsOf, zipWith_flatMap z fun f _ => by simp [hlen]]
  refine congrArg (fun h => feeds.flatMap h) (funext fun f => ?_)
  exact zipWith_positions z _ (hlen f)

/-- What holds between two layers: the layers before `l` have the keys and values of all tokens. -/
structure FilledBelow (c : PoolSizes) (M : Model W Q K) (fed : Nat → List Int) (feeds : List Feed)
    (p : Pool K) (l : Nat) (q : Pool K) : Prop where
  stored : Stored c p q
  holds : ∀ f ∈ feeds, ∀ j < M.config.numHiddenLayers,
    q.Holds c j f.1 (M.decoder.cells j (if j < l then fed f.1 ++ f.2 else fed f.1))

theorem wp_layerBatch (hM : M.Complete) (fed : Nat → List Int) {feeds : List Feed} (h : p.Wf c n)
    (hids : ∀ f ∈ feeds, f.1 < n) (hnodup : (feeds.map Prod.fst).Nodup)
    (hpast : ∀ f ∈ feeds, (p.seqs f.1).length = (fed f.1).length)
    (hroom : ∀ f ∈ feeds,
      (fed f.1).length + f.2.length ≤ (p.seqs f.1).blockTable.length * c.blockSize)
    {l : Nat} (hl : l < M.config.numHiddenLayers) {q : Pool K} (hq : FilledBelow c M fed feeds p l q) :
    wp (M.layerBatch c (slotsFrom (fun i => (fed i).length) feeds 0)
        (positionsOf (fun i => (fed i).length) feeds) (feeds.flatMap (M.tailRows fed l)) l)
      (fun x q' => x = feeds.flatMap (M.tailRows fed (l + 1)) ∧ FilledBelow c M fed feeds p (l + 1) q')
      (fun _ _ => False) q := by
  have hB := hM.decoder_block hl
  have hheads := hM.heads (Nat.zero_lt_of_lt hl)
  generalize hdec : M.decoder.block l = B at hB
  have hposlen : (positionsOf (fun i => (fed i).length) feeds).length =
      (feeds.flatMap (M.tailRows fed l)).length := by
    simp only [positionsOf, List.length_flatMap, List.length_map, List.length_range, length_tailRows]
  have hin := layerInputs_eq hB hposlen
  simp only [zipWith_positionsOf _ _ (length_tailRows fed l)] at hin
  simp only [layerBatch, hin, wp_bind, wp_lift_ok]
  have hold : ∀ f ∈ feeds, q.Holds c l f.1 (M.decoder.cells l (fed f.1)) := by
    intro f hf
    simpa using hq.holds f hf l hl
  refine wp_mono (wp_attendItems hB hdec hheads fed (hq.stored.wf h) hids hnodup
    (fun f hf => by rw [hq.stored.seqs]; exact hpast f hf)
    (fun f hf => by rw [hq.stored.seqs]; exact hroom f hf) hold ?_ rfl rfl rfl) ?_ fun _ _ hf => hf
  · simp only [List.length_replicate, Nat.zero_add, hposlen, List.length_flatMap, length_tailRows]
  · rintro attn q' ⟨rfl, hs, hcell, hall, -⟩
    obtain ⟨-, -, -, -, hfinish, -⟩ := block_ok hB
    simp only [List.take_zero, List.nil_append, layerOutput_eq, hfinish, Except.map, wp_lift_ok]
    refine ⟨?_, hq.stored.trans hs, fun f hf j hj => ?_⟩
    · rw [zipWith_flatMap _ fun f _ => by simp]
      refine congrArg (fun h => feeds.flatMap h) (funext fun f => ?_)
      rw [tailRows_succ, hdec]
    · by_cases hjl : j = l
      · subst hjl
        rw [if_pos (Nat.lt_succ_self j)]
        exact hall f hf
      · have hiff : j < l + 1 ↔ j < l := by omega
        simp only [hiff]
        refine (hq.holds f hf j hj).congr fun r _ => ?_
        rw [rowAt, rowAt, hs.seqs, hcell j hjl]

theorem map_last_slots {R : Type} (past : Nat → Nat) {feeds : List Feed} (hne : ∀ f ∈ feeds, f.2 ≠ [])
    {g : Feed → List R} (hlen : ∀ f, (g f).length = f.2.length) (d : R) {total : Nat} {rows : List R}
    (hrows : rows.drop total = feeds.flatMap g) :
    (slotsFrom past feeds total).map (fun slot => rows.getD (slot.offset + slot.len - 1) d) =
      feeds.map fun f => (g f).getLastD d := by
  induction feeds generalizing total with
  | nil => rfl
  | cons f feeds ih =>
    obtain ⟨hslice, hrest⟩ := sliceRows_of_drop_eq hrows (hlen f)
    rw [slotsFrom, List.map_cons, List.map_cons, ih (fun h hh => hne h (List.mem_cons_of_mem _ hh)) hrest]
    have hpos : 0 < f.2.length := List.length_pos_iff.mpr (hne f List.mem_cons_self)
    congr 1
    rw [List.getLastD_eq_getLast?, List.getLast?_eq_getElem?, hlen, ← hslice, sliceRows,
      List.getElem?_take_of_lt (by omega), List.getElem?_drop, List.getD_eq_getElem?_getD]
    have hindex : total + f.2.length - 1 = total + (f.2.length - 1) := by omega
    rw [hindex]

/-- **A batch computes the plain forward**: row `i` is the last row of the logits of everything the
sequence of item `i` was fed, and the pool holds the keys and values of all of it. -/
theorem wp_forwardBatch_rows (hM : M.Complete) (h : p.Wf c n) (fed : Nat → List Int) {feeds : List Feed}
    (hids : ∀ f ∈ feeds, f.1 < n) (hnodup : (feeds.map Prod.fst).Nodup) (hne : feeds ≠ [])
    (htokens : ∀ f ∈ feeds, f.2 ≠ [] ∧ ∀ t ∈ f.2, M.InVocab t)
    (hpast : ∀ f ∈ feeds, (p.seqs f.1).length = (fed f.1).length)
    (hholds : ∀ f ∈ feeds, ∀ l < M.config.numHiddenLayers,
      p.Holds c l f.1 (M.decoder.cells l (fed f.1)))
    (hblocks : p.needed c feeds ≤ p.freeBlocks) :
    wp (M.forwardBatch c (feedItems feeds))
      (fun logits p' => logits = feeds.map (fun f => (M.logits (fed f.1 ++ f.2)).getLastD []) ∧
        ∀ f ∈ feeds, ∀ l < M.config.numHiddenLayers,
          p'.Holds c l f.1 (M.decoder.cells l (fed f.1 ++ f.2)))
      (fun _ _ => False) p := by
  obtain ⟨embed, he⟩ := hM.embed
  obtain ⟨norm, hn⟩ := hM.norm
  have hitems : feedItems feeds ≠ [] := by simpa [feedItems] using hne
  have hvocab : ∀ t ∈ feeds.flatMap Prod.snd, M.InVocab t := by
    intro t ht
    obtain ⟨f, hf, htf⟩ := List.mem_flatMap.mp ht
    exact (htokens f hf).2 t htf
  rw [forwardBatch]
  simp only [hitems, if_false, wp_bind, wp_pure]
  refine wp_mono (wp_layoutItems h hids hnodup 0) ?_
    fun _ q hq => absurd (hq.2.2.1 fun f hf => (htokens f hf).1) (Nat.not_lt.mpr hblocks)
  rintro _ q ⟨rfl, hq, hext, -, hgrown, -⟩
  have hslots : slotsFrom (fun i => (p.seqs i).length) feeds 0 =
      slotsFrom (fun i => (fed i).length) feeds 0 := slotsFrom_congr hpast 0
  have hpositions : positionsOf (fun i => (p.seqs i).length) feeds =
      positionsOf (fun i => (fed i).length) feeds := positionsOf_congr hpast
  simp only [hslots, hpositions, get_eq_of_some he, embedding_eq he hvocab, wp_lift_ok]
  have hqpast : ∀ f ∈ feeds, (q.seqs f.1).length = (fed f.1).length := fun f hf => by
    rw [hext.length, hpast f hf]
  have hroom : ∀ f ∈ feeds,
      (fed f.1).length + f.2.length ≤ (q.seqs f.1).blockTable.length * c.blockSize := by
    intro f hf
    have hroom := room_of_grown (hgrown f hf)
    rwa [hpast f hf] at hroom
  have hembed : (feeds.flatMap Prod.snd).map M.decoder.embed = feeds.flatMap (M.tailRows fed 0) := by
    rw [List.map_flatMap]
    refine congrArg (fun h => feeds.flatMap h) (funext fun f => ?_)
    exact (M.decoder.hidden_zero_drop _ _).symm
  rw [hembed]
  -- after `l` layers the flat rows are the items' rows entering layer `l`
  refine wp_mono (wp_foldlM_range
    (I := fun l x r => x = feeds.flatMap (M.tailRows fed l) ∧ FilledBelow c M fed feeds q l r)
    (E := fun _ _ => False) M.config.numHiddenLayers ?_ ⟨rfl, Stored.refl c q, fun f hf l hl => ?_⟩) ?_
    fun _ _ hf => hf
  · rintro l x r hl ⟨rfl, hr⟩
    exact wp_layerBatch hM fed hq hids hnodup hqpast hroom hl hr
  · rw [if_neg (Nat.not_lt_zero l)]
    refine (hholds f hf l hl).congr fun x hx => (hext.kept h).committed f.1 l x ?_
    rw [hpast f hf]
    simpa using hx
  · rintro x r ⟨rfl, hs, hfilled⟩
    refine wp_mono (wp_commits _ feeds 0 r fun _ _ => False) ?_ fun _ _ hf => hf
    rintro _ p' rfl
    obtain ⟨hck, hcv, -, -⟩ := commitAll_frame feeds r
    simp only [(finalNorm_lmHead he hn _).1, wp_lift_ok]
    refine ⟨?_, fun f hf l hl => ?_⟩
    · generalize hnorm : (fun row => M.kernels.rmsNorm row norm M.config.rmsNormEps) = normRow
      have hrows : ((feeds.flatMap (M.tailRows fed M.config.numHiddenLayers)).map normRow).drop 0 =
          feeds.flatMap fun f => (M.tailRows fed M.config.numHiddenLayers f).map normRow := by
        rw [List.drop_zero, List.map_flatMap]
      have hlast : (feeds.map fun f =>
            ((M.tailRows fed M.config.numHiddenLayers f).map normRow).getLastD []) =
          (feeds.map fun f => (M.tailRows fed M.config.numHiddenLayers f).getLastD []).map normRow := by
        rw [List.map_map]
        refine List.map_congr_left fun f hf => getLastD_map _ ?_ _ _
        rw [← List.length_pos_iff, length_tailRows]
        exact List.length_pos_iff.mpr (htokens f hf).1
      rw [map_last_slots _ (fun f hf => (htokens f hf).1) (fun f => by simp) [] hrows, hlast, ← hnorm,
        (finalNorm_lmHead he hn _).2, List.map_map]
      exact List.map_congr_left fun f hf => (getLastD_logits fed (htokens f hf).1).symm
    · have hrow := hfilled f hf l hl
      rw [if_pos hl] at hrow
      exact hrow.congr fun x _ => rowAt_congr hck hcv (commitAll_table feeds r f.1) l x

/-! ### A batch that returns

What the pool holds does not matter for that: only the numbers of rows are checked. -/

theorem wp_attendItem_returns {l : Nat} {B : Causal.Block (Row K)} (hB : M.block l = .ok B)
    (hheads : M.config.numKeyValueHeads ≠ 0 ∧
      M.config.numAttentionHeads % M.config.numKeyValueHeads = 0) {slot : BatchSlot} {q k v attn : Rows K}
    (hslot : slot.offset + slot.len ≤ attn.length) :
    wp (M.attendItem c l q k v attn slot) (fun attn' _ => attn'.length = attn.length) (fun _ _ => False) p := by
  have hlen : (sliceRows q slot.offset slot.len).length ≤ slot.len := by
    simp only [sliceRows, List.length_take]
    omega
  simp only [attendItem, wp_bind, wp_modify, wp_get]
  rw [attend_eq hB (by simp [gatherKeys, gatherValues, PoolSizes.gatherOne]) hheads
    (by simpa [gatherKeys, PoolSizes.gatherOne] using hlen)]
  simp only [wp_lift_ok, wp_pure]
  refine length_copyRows ?_
  rw [List.length_mapIdx]
  omega

theorem wp_layerBatch_returns (hM : M.Complete) {l : Nat} (hl : l < M.config.numHiddenLayers)
    {slots : List BatchSlot} {positions : List Nat} {x : Rows K}
    (hslots : ∀ slot ∈ slots, slot.offset + slot.len ≤ positions.length)
    (hx : x.length = positions.length) :
    wp (M.layerBatch c slots positions x l) (fun x' _ => x'.length = positions.length)
      (fun _ _ => False) p := by
  have hB := hM.decoder_block hl
  have hheads := hM.heads (Nat.zero_lt_of_lt hl)
  simp only [layerBatch, layerInputs_eq hB hx.symm, wp_bind, wp_lift_ok]
  have hloop := wp_foldlM (f := M.attendItem c l (List.zipWith (M.decoder.block l).query positions x)
      (List.zipWith (M.decoder.block l).key positions x)
      (List.zipWith (M.decoder.block l).value positions x))
    (I := fun todo (attn : Rows K) (_ : Pool K) => todo ⊆ slots ∧ attn.length = positions.length)
    (E := fun _ _ => False) ?_ slots (List.replicate positions.length []) p
    ⟨List.Subset.refl _, List.length_replicate⟩
  · refine wp_mono hloop ?_ fun _ _ hf => hf
    rintro attn q ⟨-, hattn⟩
    obtain ⟨-, -, -, -, hfinish, -⟩ := block_ok hB
    simp only [layerOutput_eq, hfinish, Except.map, wp_lift_ok, List.length_zipWith, hx, hattn, min_self]
  · rintro slot todo attn q ⟨hsub, hattn⟩
    refine wp_mono (wp_attendItem_returns hB hheads ?_) ?_ fun _ _ hf => hf
    · rw [hattn]
      exact hslots slot (hsub List.mem_cons_self)
    · exact fun _ _ hlen => ⟨fun x hx => hsub (List.mem_cons_of_mem _ hx), hlen.trans hattn⟩

theorem slotsFrom_le (past : Nat → Nat) {feeds : List Feed} {total : Nat} {slot : BatchSlot}
    (h : slot ∈ slotsFrom past feeds total) :
    slot.offset + slot.len ≤ total + (feeds.map fun f => f.2.length).sum := by
  induction feeds generalizing total with
  | nil => simp [slotsFrom] at h
  | cons f feeds ih =>
    rw [List.map_cons, List.sum_cons]
    rcases List.mem_cons.mp h with rfl | h
    · simp only
      omega
    · have := ih h
      omega

/-- A batch of tokens with table rows returns when the free blocks suffice. -/
theorem wp_forwardBatch_returns (hM : M.Complete) (h : p.Wf c n) {feeds : List Feed}
    (hids : ∀ f ∈ feeds, f.1 < n) (hnodup : (feeds.map Prod.fst).Nodup) (hne : feeds ≠ [])
    (htokens : ∀ f ∈ feeds, f.2 ≠ [] ∧ ∀ t ∈ f.2, M.InVocab t)
    (hblocks : p.needed c feeds ≤ p.freeBlocks) :
    wp (M.forwardBatch c (feedItems feeds)) (fun _ _ => True) (fun _ _ => False) p := by
  obtain ⟨embed, he⟩ := hM.embed
  obtain ⟨norm, hn⟩ := hM.norm
  have hitems : feedItems feeds ≠ [] := by simpa [feedItems] using hne
  have hvocab : ∀ t ∈ feeds.flatMap Prod.snd, M.InVocab t := by
    intro t ht
    obtain ⟨f, hf, htf⟩ := List.mem_flatMap.mp ht
    exact (htokens f hf).2 t htf
  have hposlen : ∀ past, (positionsOf past feeds).length = (feeds.map fun f => f.2.length).sum := by
    intro past
    simp only [positionsOf, List.length_flatMap, List.length_map, List.length_range]
  rw [forwardBatch]
  simp only [hitems, if_false, wp_bind, wp_pure]
  refine wp_mono (wp_layoutItems h hids hnodup 0) ?_
    fun _ q hq => absurd (hq.2.2.1 fun f hf => (htokens f hf).1) (Nat.not_lt.mpr hblocks)
  rintro _ q ⟨rfl, -⟩
  simp only [get_eq_of_some he, embedding_eq he hvocab, wp_lift_ok]
  refine wp_mono (wp_foldlM_range
    (I := fun _ (x : Rows K) (_ : Pool K) =>
      x.length = (positionsOf (fun i => (p.seqs i).length) feeds).length)
    (E := fun _ _ => False) M.config.numHiddenLayers ?_ ?_) ?_ fun _ _ hf => hf
  · intro l x r hl hx
    refine wp_layerBatch_returns hM hl (fun slot hslot => ?_) hx
    rw [hposlen]
    simpa using slotsFrom_le _ hslot
  · rw [hposlen, List.length_map, List.length_flatMap]
  · intro x r _
    refine wp_mono (wp_commits _ feeds 0 r fun _ _ => False) ?_ fun _ _ hf => hf
    intro _ p' _
    simp only [(finalNorm_lmHead he hn _).1, wp_lift_ok]

end Model

end InferenceEngine
