import InferenceEngine.Cuda.Model
import InferenceEngine.Model.BatchRows

/-!
# The batched device forward

Whatever store the callback keeps, as long as it hands attention the keys and values of all tokens of an
item, the flat rows of the batch are the rows of its items, and the result is the last row of every item's
plain run. Contiguous caches with room for the new tokens are such a store.
-/

namespace InferenceEngine

open Exec

namespace CudaModel

variable {K S : Type} (M : CudaModel K)

def logits (ids : List Int) : Rows K :=
  (M.decoder.hidden M.config.numHiddenLayers ids).map fun row => M.lmHead (M.finalNorm row)

@[simp] theorem length_logits (ids : List Int) : (M.logits ids).length = ids.length := by
  simp [logits]

def lastLogits (ids : List Int) : Row K := (M.logits ids).getLastD []

theorem length_lastLogits {ids : List Int} (hids : ids ≠ []) :
    (M.lastLogits ids).length = M.config.vocabSize := by
  have hne : M.logits ids ≠ [] := by
    apply List.ne_nil_of_length_pos
    rw [length_logits]
    exact List.length_pos_iff.mpr hids
  have hmem : M.lastLogits ids ∈ M.logits ids := by
    rw [lastLogits, List.getLastD_eq_getLast?, List.getLast?_eq_some_getLast hne, Option.getD_some]
    exact List.getLast_mem hne
  obtain ⟨row, -, hlast⟩ := List.mem_map.mp hmem
  rw [← hlast]
  exact M.length_lmHead _

variable {M}

theorem lastLogits_append (ctx : List Int) {tokens : List Int} (hne : tokens ≠ []) :
    M.lastLogits (ctx ++ tokens) = M.lmHead
      (((M.decoder.chunkRows M.config.numHiddenLayers ctx tokens).map M.finalNorm).getLastD []) := by
  have hchunk : M.decoder.chunkRows M.config.numHiddenLayers ctx tokens ≠ [] := by
    apply List.ne_nil_of_length_pos
    rw [Causal.Decoder.length_chunkRows]
    exact List.length_pos_iff.mpr hne
  have hmap : (M.decoder.chunkRows M.config.numHiddenLayers ctx tokens).map
      (fun row => M.lmHead (M.finalNorm row)) ≠ [] := by simpa using hchunk
  rw [lastLogits, logits, Causal.Decoder.hidden_append_drop, List.map_append,
    ← Causal.Decoder.chunkRows, List.getLastD_eq_getLast?, List.getLast?_append_of_ne_nil _ hmap,
    ← List.getLastD_eq_getLast?, getLastD_map _ hchunk [], getLastD_map _ hchunk []]

/-! ### The layout -/

/-- The items of a batch with their indices, from item `i` on. -/
def feedsFrom (lists : List (List Int)) (i : Nat) : List Feed := (lists.zipIdx i).map Prod.swap

theorem feedsFrom_cons (tokens : List Int) (lists : List (List Int)) (i : Nat) :
    feedsFrom (tokens :: lists) i = (i, tokens) :: feedsFrom lists (i + 1) := rfl

theorem mem_feedsFrom {lists : List (List Int)} {f : Feed} (hf : f ∈ feedsFrom lists 0) :
    lists[f.1]? = some f.2 := by
  obtain ⟨⟨tokens, i⟩, hmem, rfl⟩ := List.mem_map.mp hf
  exact List.mem_zipIdx_iff_getElem?.mp hmem

theorem flatMap_feedsFrom (lists : List (List Int)) (i : Nat) :
    (feedsFrom lists i).flatMap Prod.snd = lists.flatten := by
  induction lists generalizing i with
  | nil => rfl
  | cons tokens lists ih => rw [feedsFrom_cons, List.flatMap_cons, ih, List.flatten_cons]

theorem layoutFrom_eq {fed : Nat → List Int} {pasts : List Nat} {lists : List (List Int)} {i : Nat}
    (hpasts : ∀ f ∈ feedsFrom lists i, pasts.getD f.1 0 = (fed f.1).length) (total : Nat) :
    layoutFrom pasts lists i total =
      Model.slotsFrom (fun i => (fed i).length) (feedsFrom lists i) total := by
  induction lists generalizing i total with
  | nil => rfl
  | cons tokens lists ih =>
    rw [feedsFrom_cons] at hpasts ⊢
    rw [layoutFrom, Model.slotsFrom, hpasts _ List.mem_cons_self,
      ih fun f hf => hpasts f (List.mem_cons_of_mem _ hf)]

theorem positions_slotsFrom (past : Nat → Nat) (feeds : List Feed) (total : Nat) :
    ((Model.slotsFrom past feeds total).flatMap fun slot =>
      (List.range slot.len).map (slot.past + ·)) = Model.positionsOf past feeds := by
  induction feeds generalizing total with
  | nil => rfl
  | cons f feeds ih =>
    rw [Model.slotsFrom, List.flatMap_cons, ih]
    rfl

/-! ### The callback -/

/-- A callback that serves the items of a batch, the item `i` having been fed `fed i`: in layer `l`, with the
items before `i` done, it returns the attention rows of item `i`. -/
structure Serves (M : CudaModel K) (attend : Attend S K) (fed : Nat → List Int)
    (lists : List (List Int)) (I : Nat → Nat → S → Prop) : Prop where
  attend : ∀ l < M.config.numHiddenLayers, ∀ f ∈ feedsFrom lists 0, ∀ s, I l f.1 s →
    wp (attend l f.1 f.2.length (fed f.1).length
        ((M.decoder.chunkRows l (fed f.1) f.2).mapIdx fun i x =>
          (M.decoder.block l).query ((fed f.1).length + i) x)
        ((M.decoder.block l).keysFrom (fed f.1).length (M.decoder.chunkRows l (fed f.1) f.2))
        ((M.decoder.block l).valuesFrom (fed f.1).length (M.decoder.chunkRows l (fed f.1) f.2)))
      (fun rows s' => rows = M.decoder.chunkAttn l (fed f.1) f.2 ∧ I l (f.1 + 1) s')
      (fun _ _ => False) s
  layer : ∀ l < M.config.numHiddenLayers, ∀ s, I l lists.length s → I (l + 1) 0 s

section Batch

variable {attend : Attend S K} {fed : Nat → List Int} {all : List (List Int)} {I : Nat → Nat → S → Prop}

theorem wp_attends (h : Serves M attend fed all I) {l : Nat} (hl : l < M.config.numHiddenLayers)
    {q k v : Rows K} {lists : List (List Int)} {i : Nat} (hmem : ∀ f ∈ feedsFrom lists i, f ∈ feedsFrom all 0)
    {total : Nat} {attn : Rows K} {s : S} (hs : I l i s)
    (hattn : attn.length = total + lists.flatten.length)
    (hq : q.drop total = (feedsFrom lists i).flatMap fun f =>
      (M.decoder.chunkRows l (fed f.1) f.2).mapIdx fun i x =>
        (M.decoder.block l).query ((fed f.1).length + i) x)
    (hk : k.drop total = (feedsFrom lists i).flatMap fun f =>
      (M.decoder.block l).keysFrom (fed f.1).length (M.decoder.chunkRows l (fed f.1) f.2))
    (hv : v.drop total = (feedsFrom lists i).flatMap fun f =>
      (M.decoder.block l).valuesFrom (fed f.1).length (M.decoder.chunkRows l (fed f.1) f.2)) :
    wp ((Model.slotsFrom (fun i => (fed i).length) (feedsFrom lists i) total).foldlM
        (fun attn slot => do
          let rows ← attend l slot.blocks slot.len slot.past (sliceRows q slot.offset slot.len)
            (sliceRows k slot.offset slot.len) (sliceRows v slot.offset slot.len)
          return copyRows attn slot.offset rows) attn)
      (fun attn' s' => attn' = attn.take total ++
          (feedsFrom lists i).flatMap (fun f => M.decoder.chunkAttn l (fed f.1) f.2) ∧
        I l (i + lists.length) s')
      (fun _ _ => False) s := by
  induction lists generalizing i total attn s with
  | nil =>
    refine ⟨?_, hs⟩
    change attn = attn.take total ++ []
    rw [List.append_nil, List.take_of_length_le (by simp [hattn])]
  | cons tokens lists ih =>
    rw [feedsFrom_cons] at hmem hq hk hv ⊢
    rw [List.flatMap_cons] at hq hk hv
    rw [List.flatten_cons, List.length_append] at hattn
    obtain ⟨hq1, hq2⟩ := Model.sliceRows_of_drop_eq hq (m := tokens.length) (by simp)
    obtain ⟨hk1, hk2⟩ := Model.sliceRows_of_drop_eq hk (m := tokens.length) (by simp)
    obtain ⟨hv1, hv2⟩ := Model.sliceRows_of_drop_eq hv (m := tokens.length) (by simp)
    simp only [Model.slotsFrom, List.foldlM_cons, wp_bind, wp_pure, hq1, hk1, hv1]
    apply wp_mono (h.attend l hl (i, tokens) (hmem _ List.mem_cons_self) s hs) ?_ fun _ _ hf => hf
    rintro rows s' ⟨rfl, hs'⟩
    have hlen : (M.decoder.chunkAttn l (fed i) tokens).length = tokens.length := by simp
    have hcount : i + 1 + lists.length = i + (tokens :: lists).length := by
      rw [List.length_cons]
      omega
    rw [← hcount]
    apply wp_mono (ih (fun f hf => hmem f (List.mem_cons_of_mem _ hf)) hs' ?_ hq2 hk2 hv2) ?_
      fun _ _ hf => hf
    · change (copyRows attn total (M.decoder.chunkAttn l (fed i) tokens)).length = _
      rw [Model.length_copyRows (by omega)]
      omega
    · rintro attn' s'' ⟨rfl, hs''⟩
      refine ⟨?_, hs''⟩
      rw [← hlen, Model.take_copyRows (by omega), List.flatMap_cons, List.append_assoc]

theorem wp_layerBatch (h : Serves M attend fed all I) {l : Nat} (hl : l < M.config.numHiddenLayers) {s : S}
    (hs : I l 0 s) :
    wp (M.layerBatch attend (Model.slotsFrom (fun i => (fed i).length) (feedsFrom all 0) 0)
        (Model.positionsOf (fun i => (fed i).length) (feedsFrom all 0))
        ((feedsFrom all 0).flatMap fun f => M.decoder.chunkRows l (fed f.1) f.2) l)
      (fun x s' => x = (feedsFrom all 0).flatMap (fun f => M.decoder.chunkRows (l + 1) (fed f.1) f.2) ∧
        I (l + 1) 0 s')
      (fun _ _ => False) s := by
  have hz : ∀ {A : Type} (z : Nat → Row K → A),
      List.zipWith z (Model.positionsOf (fun i => (fed i).length) (feedsFrom all 0))
          ((feedsFrom all 0).flatMap fun f => M.decoder.chunkRows l (fed f.1) f.2) =
        (feedsFrom all 0).flatMap fun f =>
          (M.decoder.chunkRows l (fed f.1) f.2).mapIdx fun i x => z ((fed f.1).length + i) x :=
    fun z => Model.zipWith_positionsOf z _ fun f => M.decoder.length_chunkRows l (fed f.1) f.2
  rw [layerBatch]
  simp only [hz, wp_bind, wp_pure]
  have hpositions : (Model.positionsOf (fun i => (fed i).length) (feedsFrom all 0)).length =
      all.flatten.length := by
    rw [← flatMap_feedsFrom all 0]
    simp only [Model.positionsOf, List.length_flatMap, List.length_map, List.length_range]
  apply wp_mono (wp_attends h hl (fun f hf => hf) hs ?_ rfl rfl rfl) ?_ fun _ _ hf => hf
  · rw [List.length_replicate, hpositions, Nat.zero_add]
  · rintro attn s' ⟨rfl, hs'⟩
    rw [Nat.zero_add] at hs'
    refine ⟨?_, h.layer l hl s' hs'⟩
    rw [List.take_zero, List.nil_append, zipWith_flatMap _ fun f _ => by simp]
    simp only [Causal.Decoder.chunkRows_succ]

/-- **A batch computes the plain run** of every item, over any store that serves it. -/
theorem wp_forwardBatchDevice (h : Serves M attend fed all I) {pasts : List Nat} (hne : all ≠ [])
    (hnonempty : ∀ tokens ∈ all, tokens ≠ [])
    (hpasts : ∀ i < all.length, pasts.getD i 0 = (fed i).length) {s : S} (hs : I 0 0 s) :
    wp (M.forwardBatchDevice attend all pasts)
      (fun rows s' => rows = (feedsFrom all 0).map (fun f => M.lastLogits (fed f.1 ++ f.2)) ∧
        I M.config.numHiddenLayers 0 s')
      (fun _ _ => False) s := by
  have hmem : [] ∉ all := fun hnil => hnonempty [] hnil rfl
  have hfeeds : ∀ f ∈ feedsFrom all 0, pasts.getD f.1 0 = (fed f.1).length := by
    intro f hf
    obtain ⟨hlt, -⟩ := List.getElem?_eq_some_iff.mp (mem_feedsFrom hf)
    exact hpasts f.1 hlt
  have hfull : ∀ f ∈ feedsFrom all 0, f.2 ≠ [] := fun f hf =>
    hnonempty f.2 (List.mem_of_getElem? (mem_feedsFrom hf))
  have hembed : all.flatten.map M.decoder.embed =
      (feedsFrom all 0).flatMap fun f => M.decoder.chunkRows 0 (fed f.1) f.2 := by
    simp only [Causal.Decoder.chunkRows_zero]
    rw [← flatMap_feedsFrom all 0, List.map_flatMap]
  rw [forwardBatchDevice]
  simp only [hne, hmem, if_false, wp_bind, wp_pure, layoutFrom_eq hfeeds, positions_slotsFrom, hembed]
  -- after `l` layers the flat rows are the items' rows entering layer `l`
  have hloop := wp_foldlM_range (I := fun l x s =>
      x = (feedsFrom all 0).flatMap (fun f => M.decoder.chunkRows l (fed f.1) f.2) ∧ I l 0 s)
    (E := fun _ (_ : S) => False)
    (f := M.layerBatch attend (Model.slotsFrom (fun i => (fed i).length) (feedsFrom all 0) 0)
      (Model.positionsOf (fun i => (fed i).length) (feedsFrom all 0)))
    M.config.numHiddenLayers ?_ ⟨rfl, hs⟩
  · apply wp_mono hloop ?_ fun _ _ hf => hf
    rintro x s' ⟨rfl, hs'⟩
    refine ⟨?_, hs'⟩
    have hrows : ((((feedsFrom all 0).flatMap fun f =>
        M.decoder.chunkRows M.config.numHiddenLayers (fed f.1) f.2).map M.finalNorm).drop 0) =
          (feedsFrom all 0).flatMap fun f =>
            (M.decoder.chunkRows M.config.numHiddenLayers (fed f.1) f.2).map M.finalNorm := by
      rw [List.drop_zero, List.map_flatMap]
    rw [Model.map_last_slots _ hfull (fun f => by simp) [] hrows, List.map_map]
    apply List.map_congr_left
    intro f hf
    exact (lastLogits_append (fed f.1) (hfull f hf)).symm
  · rintro l x s' hl ⟨rfl, hs'⟩
    exact wp_layerBatch h hl hs'

end Batch

/-! ### What attention is given -/

/-- How a callback stores the new rows of an item in a layer, and which keys and values it gives to
attention then: for a layer and an item, the number of new rows, the rows before them, and the new keys and
values. -/
abbrev Fetch (S K : Type) :=
  Nat → Nat → Nat → Nat → Rows K → Rows K → EStateM Error S (Rows K × Rows K)

def attendOver (M : CudaModel K) (fetch : Fetch S K) : Attend S K := fun l i len past q k v => do
  let (keys, values) ← fetch l i len past k v
  return M.attention l q keys values past

/-- A launch of the attention kernel for an item of a layer. -/
structure AttentionCall (K : Type) where
  layer : Nat
  item : Nat
  keys : Rows K
  values : Rows K

/-- A fetch that also writes down what attention is given. -/
def recorded (fetch : Fetch S K) : Fetch (S × List (AttentionCall K)) K := fun l i len past k v => do
  let (keys, values) ← zoom Prod.fst (fun s t => (s, t.2)) (fetch l i len past k v)
  modify fun t => (t.1, t.2 ++ [⟨l, i, keys, values⟩])
  return (keys, values)

/-- The launches of the attention kernel in a forward. -/
def attentionCalls (M : CudaModel K) (fetch : Fetch S K) (tokenLists : List (List Int)) (pasts : List Nat)
    (s : S) : List (AttentionCall K) :=
  (finalState (M.forwardBatchDevice (M.attendOver (recorded fetch)) tokenLists pasts) (s, [])).2

/-- Attention over the keys and values of all tokens gives the attention rows of the chunk. -/
theorem attention_chunk (l : Nat) (ids chunk : List Int) :
    M.attention l ((M.decoder.chunkRows l ids chunk).mapIdx fun i x =>
        (M.decoder.block l).query (ids.length + i) x) (M.decoder.keys l (ids ++ chunk))
      (M.decoder.values l (ids ++ chunk)) ids.length = M.decoder.chunkAttn l ids chunk := by
  rw [attention, List.mapIdx_mapIdx]
  rfl

/-- A fetch that gives attention the keys and values of all tokens of an item. -/
structure Fetches (M : CudaModel K) (fetch : Fetch S K) (fed : Nat → List Int) (lists : List (List Int))
    (I : Nat → Nat → S → Prop) : Prop where
  fetch : ∀ l < M.config.numHiddenLayers, ∀ f ∈ feedsFrom lists 0, ∀ s, I l f.1 s →
    wp (fetch l f.1 f.2.length (fed f.1).length
        ((M.decoder.block l).keysFrom (fed f.1).length (M.decoder.chunkRows l (fed f.1) f.2))
        ((M.decoder.block l).valuesFrom (fed f.1).length (M.decoder.chunkRows l (fed f.1) f.2)))
      (fun rows s' =>
        rows = (M.decoder.keys l (fed f.1 ++ f.2), M.decoder.values l (fed f.1 ++ f.2)) ∧ I l (f.1 + 1) s')
      (fun _ _ => False) s
  layer : ∀ l < M.config.numHiddenLayers, ∀ s, I l lists.length s → I (l + 1) 0 s

section Fetches

variable {fetch : Fetch S K} {fed : Nat → List Int} {all : List (List Int)} {I : Nat → Nat → S → Prop}

theorem Fetches.serves (h : Fetches M fetch fed all I) : Serves M (M.attendOver fetch) fed all I where
  attend := by
    intro l hl f hf s hs
    simp only [attendOver, wp_bind, wp_pure]
    apply wp_mono (h.fetch l hl f hf s hs) ?_ fun _ _ he => he
    rintro rows s' ⟨rfl, hs'⟩
    exact ⟨attention_chunk l (fed f.1) f.2, hs'⟩
  layer := h.layer

/-- The launches for the items before `i` of a layer. -/
def callsOf (M : CudaModel K) (fed : Nat → List Int) (lists : List (List Int)) (l i : Nat) :
    List (AttentionCall K) :=
  ((feedsFrom lists 0).take i).map fun f =>
    ⟨l, f.1, M.decoder.keys l (fed f.1 ++ f.2), M.decoder.values l (fed f.1 ++ f.2)⟩

/-- The launches before item `i` of layer `l`. -/
def callsBefore (M : CudaModel K) (fed : Nat → List Int) (lists : List (List Int)) (l i : Nat) :
    List (AttentionCall K) :=
  ((List.range l).flatMap fun j => M.callsOf fed lists j lists.length) ++ M.callsOf fed lists l i

theorem callsOf_succ (l : Nat) {f : Feed} (hf : f ∈ feedsFrom all 0) :
    M.callsOf fed all l (f.1 + 1) = M.callsOf fed all l f.1 ++
      [⟨l, f.1, M.decoder.keys l (fed f.1 ++ f.2), M.decoder.values l (fed f.1 ++ f.2)⟩] := by
  have hget : (feedsFrom all 0)[f.1]? = some f := by
    rw [feedsFrom, List.getElem?_map, List.getElem?_zipIdx, mem_feedsFrom hf, Nat.zero_add]
    rfl
  rw [callsOf, callsOf, List.take_add_one, hget, List.map_append]
  rfl

theorem callsBefore_layer (l : Nat) :
    M.callsBefore fed all (l + 1) 0 = M.callsBefore fed all l all.length := by
  rw [callsBefore, callsBefore, List.range_succ, List.flatMap_append, List.flatMap_singleton]
  exact List.append_nil _

/-- What is written down. -/
theorem Fetches.recorded (h : Fetches M fetch fed all I) : Fetches M (recorded fetch) fed all
    fun l i t => I l i t.1 ∧ t.2 = M.callsBefore fed all l i where
  fetch := by
    rintro l hl f hf ⟨s, calls⟩ ⟨hs, hcalls⟩
    dsimp only at hs hcalls
    subst hcalls
    simp only [CudaModel.recorded, wp_bind, wp_zoom, wp_modify, wp_pure]
    apply wp_mono (h.fetch l hl f hf s hs) ?_ fun _ _ he => he
    rintro rows s' ⟨rfl, hs'⟩
    refine ⟨rfl, hs', ?_⟩
    rw [callsBefore, callsBefore, callsOf_succ l hf, List.append_assoc]
  layer := by
    rintro l hl ⟨s, calls⟩ ⟨hs, hcalls⟩
    exact ⟨h.layer l hl s hs, hcalls.trans (callsBefore_layer l).symm⟩

theorem Fetches.attentionCalls_eq (h : Fetches M fetch fed all I) {pasts : List Nat} (hne : all ≠ [])
    (hnonempty : ∀ tokens ∈ all, tokens ≠ []) (hpasts : ∀ i < all.length, pasts.getD i 0 = (fed i).length)
    {s : S} (hs : I 0 0 s) :
    M.attentionCalls fetch all pasts s = M.callsBefore fed all M.config.numHiddenLayers 0 := by
  have hrun := wp_forwardBatchDevice h.recorded.serves hne hnonempty hpasts
    (s := (s, [])) ⟨hs, rfl⟩
  obtain ⟨rows, t, hok, -, -, hcalls⟩ := wp_returns hrun
  rw [attentionCalls, finalState, hok]
  exact hcalls

end Fetches

end CudaModel

end InferenceEngine
