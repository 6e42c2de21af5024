import InferenceEngine.Model.Batch

/-!
# The batched forward reads committed rows

What `forward_batch` computes, once the blocks are there, depends on the committed rows of its sequences and
on nothing else in the pool: what stands behind them is overwritten before it is read. So the computation
can be stated over those rows alone.
-/

namespace InferenceEngine

open Exec

/-- Per layer and sequence, rows with their keys and values. -/
abbrev Contents (K : Type) := Nat → Nat → List (Row K × Row K)

namespace Pool

variable {K : Type} {c : PoolSizes} {n : Nat} {p p' : Pool K}

def contents (c : PoolSizes) (p : Pool K) : Contents K := fun layer id =>
  (List.range (p.seqs id).length).map (p.rowAt c layer id)

@[simp] theorem length_contents (layer id : Nat) : (p.contents c layer id).length = (p.seqs id).length := by
  simp [contents]

theorem holds_contents (layer id : Nat) : p.Holds c layer id (p.contents c layer id) := by
  intro r hr
  rw [length_contents] at hr
  simp [contents, hr]

theorem Holds.contents_eq {layer id : Nat} {rows : List (Row K × Row K)} (h : p.Holds c layer id rows)
    (hlen : rows.length = (p.seqs id).length) : p.contents c layer id = rows := by
  apply List.ext_getElem?
  intro r
  by_cases hr : r < rows.length
  · rw [h r hr]
    simp [contents, ← hlen, hr]
  · rw [List.getElem?_eq_none (by rw [length_contents]; omega), List.getElem?_eq_none (by omega)]

theorem contents_congr {layer id : Nat} (hlen : (p'.seqs id).length = (p.seqs id).length)
    (hrow : ∀ r < (p.seqs id).length, p'.rowAt c layer id r = p.rowAt c layer id r) :
    p'.contents c layer id = p.contents c layer id := by
  rw [contents, contents, hlen]
  exact List.map_congr_left fun r hr => hrow r (List.mem_range.mp hr)

theorem Stored.contents (h : Stored c p p') : p'.contents c = p.contents c := by
  funext layer id
  exact contents_congr (by rw [h.seqs]) fun r hr => h.kept.committed id layer r hr

theorem Extended.contents {ids : List Nat} (h : Extended ids p p') (hp : p.Wf c n) :
    p'.contents c = p.contents c := by
  funext layer id
  exact contents_congr (h.length id) fun r hr => (h.kept hp).committed id layer r hr

theorem gather_committed (layer id : Nat) :
    p.gatherKeys c id layer (p.seqs id).length = (p.contents c layer id).map Prod.fst ∧
      p.gatherValues c id layer (p.seqs id).length = (p.contents c layer id).map Prod.snd :=
  (holds_contents layer id).gather (length_contents layer id).symm

end Pool

namespace Model

open Pool

variable {W Q K : Type} (M : Model W Q K)

/-- The rows of keys and values an item adds to a layer. -/
def addedRows (k v : Rows K) (slot : BatchSlot) : List (Row K × Row K) :=
  (List.range slot.len).map fun j => ((k.drop slot.offset).getD j [], (v.drop slot.offset).getD j [])

/-- The attention of one item, over committed rows. -/
def attendOn (rows : Nat → List (Row K × Row K)) (q k v attn : Rows K) (slot : BatchSlot) :
    Except Error (Rows K) := do
  let all := rows slot.blocks ++ addedRows k v slot
  let attnSlice ← M.attend (sliceRows q slot.offset slot.len) (all.map Prod.fst) (all.map Prod.snd) slot.past
  return copyRows attn slot.offset attnSlice

/-- One layer, over committed rows. -/
def layerOn (contents : Contents K) (slots : List BatchSlot) (positions : List Nat) (x : Rows K) (l : Nat) :
    Except Error (Rows K) := do
  let (q, k, v) ← M.layerInputs l positions x
  let attn ← slots.foldlM (M.attendOn (contents l) q k v) (List.replicate positions.length [])
  M.layerOutput l x attn

def hiddenOn (contents : Contents K) (slots : List BatchSlot) (positions : List Nat) (x : Rows K) (l : Nat) :
    Except Error (Rows K) :=
  (List.range l).foldlM (M.layerOn contents slots positions) x

/-- What layer `l` adds to the rows of an item's sequence. -/
def grownRows (contents : Contents K) (slots : List BatchSlot) (positions : List Nat) (x : Rows K) (l : Nat)
    (slot : BatchSlot) : List (Row K × Row K) :=
  match M.hiddenOn contents slots positions x l >>= M.layerInputs l positions with
  | .ok (_, k, v) => addedRows k v slot
  | .error _ => []

def embedOn (feeds : List Feed) : Except Error (W × Rows K) := do
  let embed ← M.get "model.embed_tokens.weight"
  let x ← M.kernels.embedding embed (feeds.flatMap Prod.snd)
  return (embed, x)

/-- `forward_batch`, over committed rows; sequence `i` has `past i` of them. -/
def batchOn (contents : Contents K) (past : Nat → Nat) (feeds : List Feed) : Except Error (Rows K) := do
  let slots := slotsFrom past feeds 0
  let (embed, x) ← M.embedOn feeds
  let x ← M.hiddenOn contents slots (positionsOf past feeds) x M.config.numHiddenLayers
  let normed ← M.finalNorm x
  return M.lmHead embed (slots.map fun slot => normed.getD (slot.offset + slot.len - 1) [])

variable {M} {c : PoolSizes} {n : Nat} {p : Pool K}

theorem hiddenOn_succ (contents : Contents K) (slots : List BatchSlot) (positions : List Nat) (x : Rows K)
    (l : Nat) : M.hiddenOn contents slots positions x (l + 1) =
      M.hiddenOn contents slots positions x l >>= fun x => M.layerOn contents slots positions x l := by
  rw [hiddenOn, List.range_succ, List.foldlM_append]
  simp only [hiddenOn, List.foldlM_cons, List.foldlM_nil, bind_pure]

theorem hiddenOn_congr {contents contents' : Contents K} {l : Nat} (h : ∀ j < l, contents' j = contents j)
    (slots : List BatchSlot) (positions : List Nat) (x : Rows K) :
    M.hiddenOn contents' slots positions x l = M.hiddenOn contents slots positions x l := by
  induction l with
  | zero => rfl
  | succ l ih =>
    have hlayer : ∀ x, M.layerOn contents' slots positions x l = M.layerOn contents slots positions x l := by
      intro x
      rw [layerOn, layerOn, h l (Nat.lt_succ_self l)]
    rw [hiddenOn_succ, hiddenOn_succ, ih fun j hj => h j (Nat.lt_succ_of_lt hj)]
    simp only [hlayer]

theorem grownRows_congr {contents contents' : Contents K} {l : Nat} (h : ∀ j < l, contents' j = contents j)
    (slots : List BatchSlot) (positions : List Nat) (x : Rows K) (slot : BatchSlot) :
    M.grownRows contents' slots positions x l slot = M.grownRows contents slots positions x l slot := by
  rw [grownRows, grownRows, hiddenOn_congr h]

theorem batchOn_congr {contents contents' : Contents K}
    (h : ∀ l < M.config.numHiddenLayers, contents' l = contents l) (past : Nat → Nat) (feeds : List Feed) :
    M.batchOn contents' past feeds = M.batchOn contents past feeds := by
  simp only [batchOn, hiddenOn_congr h]

theorem layerOn_of_inputs {contents : Contents K} {slots : List BatchSlot} {positions : List Nat} {x : Rows K}
    {l : Nat} {q k v : Rows K} (hin : M.layerInputs l positions x = .ok (q, k, v)) :
    M.layerOn contents slots positions x l =
      slots.foldlM (M.attendOn (contents l) q k v) (List.replicate positions.length []) >>= M.layerOutput l x := by
  rw [layerOn, hin]
  rfl

theorem grownRows_of_inputs {contents : Contents K} {slots : List BatchSlot} {positions : List Nat}
    {x₀ x : Rows K} {l : Nat} {q k v : Rows K} (hx : M.hiddenOn contents slots positions x₀ l = .ok x)
    (hin : M.layerInputs l positions x = .ok (q, k, v)) (slot : BatchSlot) :
    M.grownRows contents slots positions x₀ l slot = addedRows k v slot := by
  have hboth : (M.hiddenOn contents slots positions x₀ l >>= M.layerInputs l positions) = .ok (q, k, v) := by
    rw [hx]
    exact hin
  rw [grownRows, hboth]

@[simp] theorem length_addedRows (k v : Rows K) (slot : BatchSlot) : (addedRows k v slot).length = slot.len := by
  simp [addedRows]

/-- One item: its rows are stored behind the committed ones, and those are all it attends over. -/
theorem wp_attendItem_on (h : p.Wf c n) {slot : BatchSlot} (hslot : BatchSlot.Fits c n p slot)
    (l : Nat) (q k v attn : Rows K) :
    wp (M.attendItem c l q k v attn slot)
      (fun attn' p' => M.attendOn (p.contents c l) q k v attn slot = .ok attn' ∧ Stored c p p' ∧
        p'.Holds c l slot.blocks (p.contents c l slot.blocks ++ addedRows k v slot) ∧
        (∀ j, j ≠ l → ∀ x, p'.cell j x = p.cell j x) ∧
        ∀ i < n, i ≠ slot.blocks → ∀ r < (p.seqs i).blockTable.length * c.blockSize,
          p'.rowAt c l i r = p.rowAt c l i r)
      (fun e p' => M.attendOn (p.contents c l) q k v attn slot = .error e ∧ Stored c p p') p := by
  have hstart : (p.seqs slot.blocks).length ≤ slot.past := hslot.past_eq.ge
  have hs : Stored c p
      (p.write c slot.blocks l slot.past (k.drop slot.offset) (v.drop slot.offset) slot.len) :=
    h.stored_write hslot.lt hstart hslot.le
  have hall : (p.write c slot.blocks l slot.past (k.drop slot.offset) (v.drop slot.offset) slot.len).Holds c l
      slot.blocks (p.contents c l slot.blocks ++ addedRows k v slot) := by
    apply Holds.write h hslot.lt hstart hslot.le (holds_contents l slot.blocks)
    · rw [length_contents, hslot.past_eq]
    · rw [length_addedRows]
    · intro j hj
      simp [addedRows, hj]
  obtain ⟨hkeys, hvalues⟩ := hall.gather (m := slot.past + slot.len) (by simp [hslot.past_eq])
  simp only [attendItem, wp_bind, wp_modify, wp_get, hkeys, hvalues, wp_lift, wp_pure, attendOn]
  constructor
  · intro slice hslice
    refine ⟨by rw [hslice]; rfl, hs, hall, fun j hj x => write_cell_of_layer_ne hj x, fun i hi hne r hr => ?_⟩
    exact write_rowAt_of_ne h hslot.lt hstart hslot.le hi hr (.inl hne) l
  · intro e he
    exact ⟨by rw [he]; rfl, hs⟩

theorem wp_attendItems_on (l : Nat) (q k v : Rows K) {slots : List BatchSlot}
    (hnodup : (slots.map BatchSlot.blocks).Nodup) (h : p.Wf c n)
    (hslots : ∀ slot ∈ slots, BatchSlot.Fits c n p slot) (attn : Rows K) :
    wp (slots.foldlM (M.attendItem c l q k v) attn)
      (fun attn' p' => slots.foldlM (M.attendOn (p.contents c l) q k v) attn = .ok attn' ∧ Stored c p p' ∧
        (∀ slot ∈ slots, p'.Holds c l slot.blocks (p.contents c l slot.blocks ++ addedRows k v slot)) ∧
        (∀ j, j ≠ l → ∀ x, p'.cell j x = p.cell j x) ∧
        ∀ i < n, i ∉ slots.map BatchSlot.blocks → ∀ r < (p.seqs i).blockTable.length * c.blockSize,
          p'.rowAt c l i r = p.rowAt c l i r)
      (fun e p' => slots.foldlM (M.attendOn (p.contents c l) q k v) attn = .error e ∧ Stored c p p') p := by
  induction slots generalizing p attn with
  | nil => exact ⟨rfl, Stored.refl c p, fun _ hslot => by simp at hslot, fun _ _ _ => rfl, fun _ _ _ _ _ => rfl⟩
  | cons slot slots ih =>
    rw [List.map_cons, List.nodup_cons] at hnodup
    have hslot := hslots slot List.mem_cons_self
    rw [List.foldlM_cons, List.foldlM_cons, wp_bind]
    apply wp_mono (wp_attendItem_on h hslot l q k v attn)
    · intro attn' r ⟨hattn, hs, hholds, hcell, hrows⟩
      rw [hattn]
      apply wp_mono (ih hnodup.2 (hs.wf h)
        (fun s hmem => (hslots s (List.mem_cons_of_mem _ hmem)).stored hs) attn')
      · intro attn'' p' ⟨hattn', hs', hholds', hcell', hrows'⟩
        rw [hs.contents] at hattn' hholds'
        refine ⟨hattn', hs.trans hs', fun s hmem => ?_, fun j hj x => by rw [hcell' j hj, hcell j hj],
          fun i hi hni r hr => ?_⟩
        · obtain rfl | hmem := List.mem_cons.mp hmem
          · apply hholds.congr
            intro r hr
            apply hrows' _ hslot.lt hnodup.1
            rw [hs.seqs]
            rw [List.length_append, length_contents, length_addedRows, ← hslot.past_eq] at hr
            exact hr.trans_le hslot.le
          · exact hholds' s hmem
        · rw [List.map_cons, List.mem_cons, not_or] at hni
          rw [hrows' i hi hni.2 r (by rwa [hs.seqs]), hrows i hi hni.1 r hr]
      · intro e p' ⟨herror, hs'⟩
        rw [hs.contents] at herror
        exact ⟨herror, hs.trans hs'⟩
    · intro e p' ⟨herror, hs⟩
      exact ⟨by rw [herror]; rfl, hs⟩

/-- What holds between two layers: the layers before `l` have what they add to the committed rows of `p`. -/
structure FilledOn (c : PoolSizes) (M : Model W Q K) (slots : List BatchSlot) (positions : List Nat)
    (x : Rows K) (p : Pool K) (l : Nat) (q : Pool K) : Prop where
  stored : Stored c p q
  length : ∀ slot ∈ slots, ∀ j < l, (M.grownRows (p.contents c) slots positions x j slot).length = slot.len
  holds : ∀ slot ∈ slots, ∀ j < l, q.Holds c j slot.blocks
    (p.contents c j slot.blocks ++ M.grownRows (p.contents c) slots positions x j slot)

theorem wp_layerBatch_on {slots : List BatchSlot} (hnodup : (slots.map BatchSlot.blocks).Nodup) (h : p.Wf c n)
    (hslots : ∀ slot ∈ slots, BatchSlot.Fits c n p slot) (positions : List Nat) (x₀ x : Rows K) (l : Nat)
    (hx : M.hiddenOn (p.contents c) slots positions x₀ l = .ok x) {q : Pool K}
    (hq : FilledOn c M slots positions x₀ p l q) :
    wp (M.layerBatch c slots positions x l)
      (fun x' q' => M.hiddenOn (p.contents c) slots positions x₀ (l + 1) = .ok x' ∧
        FilledOn c M slots positions x₀ p (l + 1) q')
      (fun e q' => M.hiddenOn (p.contents c) slots positions x₀ (l + 1) = .error e ∧ Stored c p q') q := by
  have hnext : M.hiddenOn (p.contents c) slots positions x₀ (l + 1) =
      M.layerOn (p.contents c) slots positions x l := by
    rw [hiddenOn_succ, hx]
    rfl
  rw [hnext]
  simp only [layerBatch, wp_bind, wp_lift]
  constructor
  · intro inputs hin
    obtain ⟨qr, k, v⟩ := inputs
    rw [layerOn_of_inputs hin]
    have hitems := wp_attendItems_on (M := M) l qr k v hnodup (hq.stored.wf h)
      (fun slot hmem => (hslots slot hmem).stored hq.stored) (List.replicate positions.length [])
    rw [hq.stored.contents] at hitems
    apply wp_mono hitems
    · intro attn q' hout
      obtain ⟨hattn, hs, hholds, hcell, _⟩ := hout
      rw [hattn]
      change (∀ x', M.layerOutput l x attn = .ok x' → M.layerOutput l x attn = .ok x' ∧ _) ∧
        ∀ e, M.layerOutput l x attn = .error e → M.layerOutput l x attn = .error e ∧ _
      refine ⟨fun x' hx' => ⟨hx', hq.stored.trans hs, fun slot hslot j hj => ?_, fun slot hslot j hj => ?_⟩,
        fun e he => ⟨he, hq.stored.trans hs⟩⟩
      · by_cases hjl : j = l
        · rw [hjl, grownRows_of_inputs hx hin, length_addedRows]
        · exact hq.length slot hslot j (by omega)
      · by_cases hjl : j = l
        · subst hjl
          rw [grownRows_of_inputs hx hin]
          exact hholds slot hslot
        · apply (hq.holds slot hslot j (by omega)).congr
          intro r _
          rw [rowAt, rowAt, hs.seqs, hcell j hjl]
    · intro e q' hout
      obtain ⟨herror, hs⟩ := hout
      rw [herror]
      exact ⟨rfl, hq.stored.trans hs⟩
  · intro e he
    rw [layerOn, he]
    exact ⟨rfl, hq.stored⟩

theorem hiddenOn_error_of_le {contents : Contents K} {slots : List BatchSlot} {positions : List Nat}
    {x : Rows K} {e : Error} {l m : Nat} (h : M.hiddenOn contents slots positions x l = .error e)
    (hle : l ≤ m) : M.hiddenOn contents slots positions x m = .error e := by
  induction hle with
  | refl => exact h
  | step _ ih =>
    rw [hiddenOn_succ, ih]
    rfl

theorem wp_layers_on {slots : List BatchSlot} (hnodup : (slots.map BatchSlot.blocks).Nodup) (h : p.Wf c n)
    (hslots : ∀ slot ∈ slots, BatchSlot.Fits c n p slot) (positions : List Nat) (x : Rows K) (m : Nat) :
    wp ((List.range m).foldlM (M.layerBatch c slots positions) x)
      (fun x' q => M.hiddenOn (p.contents c) slots positions x m = .ok x' ∧
        FilledOn c M slots positions x p m q)
      (fun e q => M.hiddenOn (p.contents c) slots positions x m = .error e ∧ Stored c p q) p := by
  apply wp_foldlM_range (I := fun l x' q => M.hiddenOn (p.contents c) slots positions x l = .ok x' ∧
    FilledOn c M slots positions x p l q)
  · intro l x' q hl ⟨hx', hq⟩
    apply wp_mono (wp_layerBatch_on hnodup h hslots positions x x' l hx' hq) fun _ _ hpost => hpost
    intro e q' ⟨herror, hs⟩
    exact ⟨hiddenOn_error_of_le herror hl, hs⟩
  · exact ⟨rfl, Stored.refl c p, fun _ _ j hj => absurd hj (Nat.not_lt_zero j),
      fun _ _ j hj => absurd hj (Nat.not_lt_zero j)⟩

end Model

end InferenceEngine
