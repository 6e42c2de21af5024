import InferenceEngine.Model.Bounds
import InferenceEngine.Model.PoolBounds

/-!
# Which batches stay in bounds

`forward_batch` over shapes, on a block manager with 64-bit sizes and offsets. A batch touches what a sequence
alone touches, the blocks of its sequences, and the rows it copies.
-/

namespace InferenceEngine

open Exec Checked Wrap Shapes

namespace ShapedModel

variable (M : ShapedModel)

section Batch

variable (c : PoolSizes) {K : Type}

def accessRow (table : List Nat) (logical : Int) : Accesses Unit := do
  touch table.length (c.tableIndex logical) 1
  touch c.storeSize (c.rowOffset table logical) (floats c.kvDim)

/-- `write_one`, from the rows of `src` behind `off`. -/
def writeOne (table : List Nat) (start : Nat) (src : Dims) (off : Int) (n : Nat) : Accesses Unit :=
  loop n fun r => do
    accessRow c table (int64 (start + r : Nat))
    touch src.size (off + int64 (r * c.kvDim : Nat)) (floats c.kvDim)

def gatherOne (table : List Nat) (rows : Nat) : Accesses Dims := do
  let out ← create [rows, c.kvDim]
  loop rows fun r => do
    accessRow c table r
    touch out.size (int64 (r * c.kvDim : Nat)) (floats c.kvDim)
  return out

/-- One item of a layer. More rows than `int64_t` counts are gathered as none, and `attention` then cannot
allocate its scores. -/
def attendItem (l : Nat) (table : List Nat) (q k v attn : Dims) (slot : BatchSlot) : Accesses Unit := do
  touch c.numLayers l 1
  writeOne c table slot.past k (int64 (slot.offset * M.kvDim)) slot.len
  writeOne c table slot.past v (int64 (slot.offset * M.kvDim)) slot.len
  let total := slot.past + slot.len
  require (total < 2 ^ 63) .lengthError
  let kAll ← gatherOne c table total
  let vAll ← gatherOne c table total
  let qSlice ← create [slot.len, M.qDim.toNat]
  let n := floats (int64 (slot.len * M.qDim))
  touch qSlice.size 0 n
  touch q.size (int64 (slot.offset * M.qDim)) n
  let attnSlice ← attention qSlice kAll vAll M.numAttentionHeads M.numKeyValueHeads M.headDim slot.past
  touch attn.size (int64 (slot.offset * M.qDim)) n
  touch attnSlice.size 0 n

def layerBatch (p : Pool K) (slots : List BatchSlot) (total : Nat) (x : Dims) (l : Nat) : Accesses Dims := do
  let qkv ← M.layerInputs l total x
  let attn ← create [total, M.qDim.toNat]
  forM slots fun slot => M.attendItem c l (p.seqs slot.blocks).blockTable qkv.1 qkv.2.1 qkv.2.2 attn slot
  M.layerOutput l x attn

def copyLast (normed lastHidden : Dims) (slot : BatchSlot × Nat) : Accesses Unit := do
  let h := M.hiddenSize
  let lastRow := slot.1.offset + slot.1.len - 1
  touch lastHidden.size (int64 (slot.2 * h : Nat)) (floats h)
  touch normed.size (int64 (lastRow * h : Nat)) (floats h)

/-- `forward_batch` behind its first loop. There are as many positions as tokens. -/
def batchLogits (p : Pool K) (slots : List BatchSlot) (allIds : List Int) : Accesses Dims := do
  let embed ← M.get "model.embed_tokens.weight"
  let x ← embedding embed allIds
  let x ← (List.range M.numHiddenLayers).foldlM (M.layerBatch c p slots allIds.length) x
  let normed ← M.normed x "model.norm.weight"
  let lastHidden ← create [slots.length, M.hiddenSize]
  forM slots.zipIdx (M.copyLast normed lastHidden)
  linear lastHidden M.headDims []

/-- A call of the block manager. -/
def called (call : EStateM Error (Pool K) Unit) (p : Pool K) : Accesses (Pool K) :=
  match call p with
  | .ok _ p' => .ok p'
  | .error e _ => throwing (.error e)

/-- The first loop of `forward_batch`. -/
def layoutItems : List BatchItem → Nat → Pool K → Accesses (List BatchSlot × List Int × Pool K)
  | [], _, p => return ([], [], p)
  | item :: items, total, p =>
    match item.blocks with
    | none => throwing (invalid "forward_batch: null sequence blocks")
    | some id => do
      require (item.tokens ≠ []) (invalid "forward_batch: item has no tokens")
      require (total + item.tokens.length ≤ maxSize 8) .lengthError
      let past := (p.seqs id).length
      let p ← called (Pool.reserve64 c id item.tokens.length) p
      let out ← layoutItems items (total + item.tokens.length) p
      return (⟨id, total, item.tokens.length, past⟩ :: out.1, item.tokens ++ out.2.1, out.2.2)

def forwardBatch (p : Pool K) (items : List BatchItem) : Accesses Dims := do
  require (items ≠ []) (invalid "forward_batch: empty batch")
  require (items.length ≤ maxSize 8) .lengthError
  let out ← layoutItems c items 0 p
  M.batchLogits c out.2.2 out.1 out.2.1

/-- The logits of item `k` that `Engine::step` hands to the sampler. -/
def logitsSlice (logits : Dims) (k : Nat) : Accesses Unit :=
  touch logits.size (int64 (k * M.vocabSize : Nat)) M.vocabSize

/-- A batch of `Engine::step`, and the rows of logits it samples from. -/
def sampledBatch (p : Pool K) (items : List BatchItem) : Accesses Unit := do
  let logits ← M.forwardBatch c p items
  forM (List.range items.length) (M.logitsSlice logits)

/-! ### The path of a batch -/

/-- Nothing checks the rows of `v_proj`, and nothing the blocks and stores. -/
def slotPath (l total : Nat) (table : List Nat) (slot : BatchSlot) : List Stage :=
  let kvDim := M.numKeyValueHeads * M.headDim
  let rows := slot.past + slot.len
  [.touch (∀ r < slot.len, c.RowFits table (int64 (slot.past + r : Nat))),
    .touch ((slot.offset + slot.len) * kvDim ≤ total * M.rows (projKey l "v")), .check (rows < 2 ^ 63),
    .check (Dims.size [rows, kvDim] ≤ maxSize 4),
    .touch (rows * kvDim < 2 ^ 63 ∧ ∀ r < rows, c.RowFits table (r : Nat))] ++
    attentionPath rows M.numAttentionHeads M.numKeyValueHeads M.headDim

def layerBatchPath (table : Nat → List Nat) (slots : List BatchSlot) (total h l : Nat) : List Stage :=
  [M.inputsPath l total h, slots.flatMap fun slot => M.slotPath c l total (table slot.blocks) slot,
    M.outputPath l total h].flatten

/-- Nothing checks `hidden_size`. -/
def copyLastPath (total h count : Nat) (slot : BatchSlot × Nat) : List Stage :=
  [.touch (InBuffer (Dims.size [count, M.hiddenSize]) (int64 (slot.2 * M.hiddenSize : Nat)) (floats M.hiddenSize) ∧
    InBuffer (total * h) (int64 ((slot.1.offset + slot.1.len - 1) * M.hiddenSize : Nat)) (floats M.hiddenSize))]

def batchLogitsPath (table : Nat → List Nat) (slots : List BatchSlot) (allIds : List Int) : List Stage :=
  let embed := M.dims "model.embed_tokens.weight"
  let h := embed.getD 1 0
  [[.check (M.weights "model.embed_tokens.weight" ≠ none)], embeddingPath embed allIds,
    (List.range M.numHiddenLayers).flatMap (M.layerBatchPath c table slots allIds.length h),
    M.normPath h "model.norm.weight",
    .check (Dims.size [slots.length, M.hiddenSize] ≤ maxSize 4) ::
      slots.zipIdx.flatMap (M.copyLastPath allIds.length h slots.length),
    linearPath slots.length M.hiddenSize M.headDims []].flatten

/-- The rows and blocks of the items are fixed by the lengths, the tables and the supply before the batch. -/
def batchPath (p : Pool K) (items : List BatchItem) : List Stage :=
  let past := fun i => (p.seqs i).length
  let feeds := itemFeeds items
  [.check (items ≠ []), .check (items.length ≤ maxSize 8), .check (p.blocks.Suffice c past items 0)] ++
    M.batchLogitsPath c (feeds.foldl (Blocks.grow c past) p.blocks).table (Model.slotsFrom past feeds 0)
      (feeds.flatMap Prod.snd)

/-- Nothing checks `vocab_size`. -/
def sampledPath (p : Pool K) (items : List BatchItem) : List Stage :=
  M.batchPath c p items ++ [.touch (M.vocabSize ≤ M.headDims.getD 0 0)]

variable {M c}

/-! ### An item -/

theorem touches_accessRow (table : List Nat) (logical : Int) :
    Touches (accessRow c table logical) (c.RowFits table logical) :=
  (touches_touch _ _ _).bind fun _ => touches_touch _ _ _

theorem touches_writeOne (table : List Nat) (start : Nat) {total width offset len : Nat}
    (hsrc : total * width ≤ maxSize 4) (hrows : total * c.kvDim ≤ maxSize 4) (hlen : 0 < len)
    (hfit : offset + len ≤ total) :
    Touches (writeOne c table start [total, width] (int64 (offset * (c.kvDim : Int))) len)
      ((∀ r < len, c.RowFits table (int64 (start + r : Nat))) ∧ (offset + len) * c.kvDim ≤ total * width) := by
  have hrow : ∀ r < len, InBuffer (Dims.size [total, width])
      (int64 (offset * (c.kvDim : Int)) + int64 (r * c.kvDim : Nat)) (floats c.kvDim) ↔
        (offset + r) * c.kvDim + c.kvDim ≤ total * width := by
    intro r hr
    have hle := (row_le (w := c.kvDim) (by omega : offset + r < total)).trans hrows
    rw [maxSize_four] at hle
    have hpos := c.kvDim_pos
    rw [Nat.add_mul] at *
    rw [size_of_le hsrc, ← Int.natCast_mul, int64_natCast (by omega), int64_natCast (by omega),
      floats_natCast (by omega), ← Int.natCast_add, inBuffer_natCast]
    omega
  apply (touches_loop fun r _ => (touches_accessRow table _).bind fun _ => touches_touch _ _ _).congr
  constructor
  · intro hall
    refine ⟨fun r hr => (hall r hr).1, ?_⟩
    have hlast := (hrow (len - 1) (by omega)).mp (hall (len - 1) (by omega)).2
    rw [← Nat.succ_mul] at hlast
    rwa [show (offset + (len - 1)).succ = offset + len by omega] at hlast
  · intro h r hr
    refine ⟨h.1 r hr, (hrow r hr).mpr ((row_le ?_).trans h.2)⟩
    omega

theorem staged_gatherOne (table : List Nat) (rows : Nat) (hdim : c.kvDim < 2 ^ 62) :
    Staged (gatherOne c table rows) [.check (Dims.size [rows, c.kvDim] ≤ maxSize 4),
      .touch (rows * c.kvDim < 2 ^ 63 ∧ ∀ r < rows, c.RowFits table (r : Nat))] [rows, c.kvDim] := by
  rw [gatherOne]
  apply staged_create
  intro hsize
  have hbound := maxSize_four
  refine ((touches_loop fun r _ => (touches_accessRow table r).bind fun _ => touches_touch _ _ _).congr ?_).staged
    fun _ => staged_ok _
  rw [forall₂_and, floats_natCast hdim, rows_inBuffer_iff (by omega), le_size_iff hsize, and_comm]

/-- The copies between the rows of a batch and those of an item. -/
theorem touch_rows_eq_ok {total width offset len : Nat} (hall : total * width ≤ maxSize 4)
    (hfit : offset + len ≤ total) :
    touch (Dims.size [total, width]) (int64 (offset * (width : Int))) (len * width) = .ok () := by
  have hrows := Nat.mul_le_mul_right width hfit
  have hle := hrows.trans hall
  rw [Nat.add_mul] at hrows hle
  rw [maxSize_four] at hle
  rw [← Int.natCast_mul, int64_natCast (by omega), size_of_le hall]
  exact (touches_touch _ _ _).ok (inBuffer_natCast.mpr (.inr hrows))

theorem staged_attendItem {l total : Nat} {table : List Nat} {slot : BatchSlot} (hl : l < c.numLayers)
    (h : Inputs M l total) (hkv : (c.kvDim : Int) = M.kvDim) (hlen : 0 < slot.len)
    (hfit : slot.offset + slot.len ≤ total) :
    Staged (M.attendItem c l table [total, M.rows (projKey l "q")] [total, M.rows (projKey l "k")]
      [total, M.rows (projKey l "v")] [total, M.numAttentionHeads * M.headDim] slot)
      (M.slotPath c l total table slot) () := by
  have hwidth : c.kvDim = M.numKeyValueHeads * M.headDim := by
    rw [h.kvDim_eq] at hkv
    exact Int.ofNat.inj hkv
  have hkeys := h.keys_le
  rw [← hwidth] at hkeys
  have hdim : c.kvDim < 2 ^ 62 := by
    have hle := (Nat.le_mul_of_pos_left c.kvDim (by omega : 0 < total)).trans hkeys
    rw [maxSize_four] at hle
    omega
  have hslice : slot.len * (M.numAttentionHeads * M.headDim) ≤ maxSize 4 :=
    (Nat.mul_le_mul_right _ (by omega : slot.len ≤ total)).trans h.queries_le
  have hn : floats (int64 (slot.len * ((M.numAttentionHeads * M.headDim : Nat) : Int))) =
      slot.len * (M.numAttentionHeads * M.headDim) := by
    rw [maxSize_four] at hslice
    rw [← Int.natCast_mul, int64_natCast (by omega), floats_natCast (by omega)]
  have hfront := (touches_front _ _).ok (size_of_le hslice).ge
  have hcopy := touch_rows_eq_ok h.queries_le hfit
  rw [attendItem, slotPath, h.query, h.key, (touches_touch _ _ _).ok (inBuffer_one.mpr hl), ok_bind, ← hkv,
    h.qDim_eq, Int.toNat_natCast, ← hwidth]
  -- the keys are as wide as the rows of the manager, the values need not be
  have hwritten := touches_writeOne table slot.past hkeys hkeys hlen hfit
  refine (hwritten.congr (and_iff_left (Nat.mul_le_mul_right _ hfit))).staged fun hrows => ?_
  have hvalues := touches_writeOne table slot.past h.values_le hkeys hlen hfit
  refine (hvalues.congr (and_iff_right hrows)).staged fun _ => ?_
  apply staged_require Iff.rfl
  intro htotal
  have hgather := staged_gatherOne table (slot.past + slot.len) hdim
  refine hgather.bind fun hpass => ?_
  rw [(hgather.result _).mpr ⟨hpass, rfl⟩, ok_bind, create_bind ((size_of_le hslice).trans_le hslice), hn]
  dsimp only
  rw [hfront, ok_bind, hcopy, ok_bind]
  have hcached := ((le_size_iff hpass.1).mpr hpass.2.1.1).trans hpass.1
  rw [hwidth] at hcached ⊢
  apply (staged_attention h.qDim_lt h.kvDim_lt hslice hcached le_rfl htotal).followed
  exact hfront

/-! ### The whole batch -/

/-- Items with tokens, and with rows of their own among those of the batch. -/
def Spread (total : Nat) (slots : List BatchSlot) : Prop :=
  ∀ slot ∈ slots, 0 < slot.len ∧ slot.offset + slot.len ≤ total

variable {K : Type} {p : Pool K} {slots : List BatchSlot}

theorem staged_layerBatch {l total h : Nat} (hl : l < c.numLayers) (hkv : (c.kvDim : Int) = M.kvDim)
    (htotal : 0 < total) (hslots : Spread total slots) (hx : Solid total h) :
    Staged (M.layerBatch c p slots total [total, h] l)
      (M.layerBatchPath c (fun i => (p.seqs i).blockTable) slots total h l) [total, h] := by
  refine (staged_layerInputs htotal hx l).bind fun hpass => ?_
  have hinputs := inputs_of_inputsPath hpass
  rw [hinputs.qDim_eq, Int.toNat_natCast, create_bind ((size_of_le hinputs.queries_le).trans_le hinputs.queries_le)]
  have hitems : Staged (forM slots fun slot => M.attendItem c l (p.seqs slot.blocks).blockTable
      [total, M.rows (projKey l "q")] [total, M.rows (projKey l "k")] [total, M.rows (projKey l "v")]
      [total, M.numAttentionHeads * M.headDim] slot) _ () :=
    staged_forM fun slot hmem => staged_attendItem (M := M) hl hinputs hkv (hslots slot hmem).1 (hslots slot hmem).2
  refine hitems.bind fun _ => ?_
  exact staged_layerOutput htotal (le_of_inputsPath hx hpass) hinputs.queries_le l

theorem staged_copyLast {total h : Nat} (hx : total * h ≤ maxSize 4) (count : Nat) (slot : BatchSlot × Nat) :
    Staged (M.copyLast [total, h] [count, M.hiddenSize] slot) (M.copyLastPath total h count slot) () := by
  rw [copyLastPath, ← size_of_le hx]
  exact ((touches_touch _ _ _).bind fun _ => touches_touch _ _ _).alone

theorem staged_batchLogits {allIds : List Int} (hlayers : c.numLayers = M.numHiddenLayers)
    (hkv : (c.kvDim : Int) = M.kvDim) (hids : allIds ≠ []) (hne : slots ≠ []) (hslots : Spread allIds.length slots) :
    Staged (M.batchLogits c p slots allIds) (M.batchLogitsPath c (fun i => (p.seqs i).blockTable) slots allIds)
      [slots.length, M.headDims.getD 0 0] := by
  have htotal : 0 < allIds.length := List.length_pos_iff.mpr hids
  refine (staged_get _).bind fun _ => (staged_embedding _ allIds).bind fun hembed => ?_
  have hx := solid_of_embedded hembed
  have hrun : Staged ((List.range M.numHiddenLayers).foldlM (M.layerBatch c p slots allIds.length)
      [allIds.length, (M.dims "model.embed_tokens.weight").getD 1 0]) _ _ := staged_foldlM fun l hl =>
    staged_layerBatch (hlayers ▸ List.mem_range.mp hl) hkv htotal hslots hx
  refine hrun.bind fun _ => (staged_normed hx _).bind fun hnorm => ?_
  have hx := le_of_normPath hx hnorm
  apply staged_create
  intro hlast
  refine (staged_forM fun slot _ => staged_copyLast hx slots.length slot).bind fun _ => ?_
  exact staged_linear (List.length_pos_iff.mpr hne) hlast size_headDims_le (size_nil_le _)

/-! ### The first loop -/

theorem length_slotsFrom (past : Nat → Nat) (feeds : List Feed) (total : Nat) :
    (Model.slotsFrom past feeds total).length = feeds.length := by
  have hlength := congrArg List.length (Model.map_blocks_slotsFrom past feeds total)
  rwa [List.length_map, List.length_map] at hlength

theorem slotsFrom_rows_le {past : Nat → Nat} {feeds : List Feed} {total : Nat} {slot : BatchSlot}
    (hmem : slot ∈ Model.slotsFrom past feeds total) :
    slot.offset + slot.len ≤ total + (feeds.flatMap Prod.snd).length := by
  induction feeds generalizing total with
  | nil => cases hmem
  | cons f feeds ih =>
    rw [List.flatMap_cons, List.length_append]
    rw [Model.slotsFrom, List.mem_cons] at hmem
    obtain rfl | hmem := hmem
    · dsimp only
      omega
    · have := ih hmem
      omega

variable {n : Nat}

theorem called_reserve64_cases (h : p.Counted c n) {past : Nat → Nat} (hpast : ∀ i, (p.seqs i).length = past i)
    {f : Feed} (hid : f.1 < n) :
    (p.blocks.taken c past f ≤ p.blocks.supply.length ∧ ∃ p', called (Pool.reserve64 c f.1 f.2.length) p = .ok p' ∧
      p'.Counted c n ∧ (∀ i, (p'.seqs i).length = past i) ∧ p'.blocks = p.blocks.grow c past f) ∨
    (¬p.blocks.taken c past f ≤ p.blocks.supply.length ∧
      ∃ e, called (Pool.reserve64 c f.1 f.2.length) p = throwing e) := by
  have hrun := h.wp_reserve64 hid f.2.length (d := p.blocks.taken c past f) (by rw [hpast, Blocks.taken, Pool.blocks])
  generalize htaken : p.blocks.taken c past f = d at *
  rw [called]
  cases hres : Pool.reserve64 c f.1 f.2.length p with
  | ok u p' =>
    obtain ⟨hp', hle, htook⟩ := wp_ok hrun hres
    refine .inl ⟨hle, p', rfl, hp', ?_, ?_⟩
    · intro i
      by_cases hi : i = f.1
      · rw [hi, htook.self, hpast]
      · rw [htook.others i hi, hpast]
    · rw [Pool.blocks, Blocks.grow, htaken, htook.supply_eq]
      congr 1
      ext1 i
      by_cases hi : i = f.1
      · rw [hi, Function.update_self, htook.self]
        rfl
      · rw [Function.update_of_ne hi, htook.others i hi]
        rfl
  | error e p' =>
    obtain ⟨-, hlt⟩ := wp_error hrun hres
    exact .inr ⟨not_le.mpr hlt, .error e, rfl⟩

theorem layoutItems_cases {items : List BatchItem} {past : Nat → Nat} (h : p.Counted c n)
    (hpast : ∀ i, (p.seqs i).length = past i) (hids : ∀ f ∈ itemFeeds items, f.1 < n) (total : Nat) :
    (p.blocks.Suffice c past items total ∧ ∃ p', layoutItems c items total p =
      .ok (Model.slotsFrom past (itemFeeds items) total, (itemFeeds items).flatMap Prod.snd, p') ∧
        p'.blocks = (itemFeeds items).foldl (Blocks.grow c past) p.blocks) ∨
    (¬p.blocks.Suffice c past items total ∧ ∃ e, layoutItems c items total p = throwing e) := by
  induction items generalizing p total with
  | nil => exact .inl ⟨trivial, p, rfl, rfl⟩
  | cons item items ih =>
    obtain ⟨blocks, tokens⟩ := item
    cases blocks with
    | none =>
      refine .inr ⟨fun hsuffice => ?_, _, rfl⟩
      obtain ⟨id, hid, -⟩ := hsuffice
      cases hid
    | some id =>
      have hfeeds : itemFeeds (⟨some id, tokens⟩ :: items) = (id, tokens) :: itemFeeds items := rfl
      rw [hfeeds] at hids ⊢
      have hsuffice : p.blocks.Suffice c past (⟨some id, tokens⟩ :: items) total ↔
          tokens ≠ [] ∧ total + tokens.length ≤ maxSize 8 ∧
            p.blocks.taken c past (id, tokens) ≤ p.blocks.supply.length ∧
            (p.blocks.grow c past (id, tokens)).Suffice c past items (total + tokens.length) := by
        simp only [Blocks.Suffice, Option.some.injEq, exists_eq_left']
      rw [hsuffice, layoutItems]
      dsimp only
      by_cases hne : tokens ≠ []
      case neg => exact .inr ⟨fun hall => hne hall.1, _, require_bind_of_not hne⟩
      by_cases hroom : total + tokens.length ≤ maxSize 8
      case neg =>
        rw [require_bind hne]
        exact .inr ⟨fun hall => hroom hall.2.1, _, require_bind_of_not hroom⟩
      rw [require_bind hne, require_bind hroom]
      obtain ⟨hle, p', hreserved, hp', hpast', hblocks⟩ | ⟨hlt, e, hreserved⟩ :=
        called_reserve64_cases h hpast (hids (id, tokens) List.mem_cons_self)
      · rw [hreserved, ok_bind, hpast, List.foldl_cons, ← hblocks]
        obtain ⟨hrest, q, hlayout, hq⟩ | ⟨hnot, e, hlayout⟩ := ih hp' hpast'
          (fun f hf => hids f (List.mem_cons_of_mem _ hf)) (total + tokens.length)
        · rw [hlayout]
          exact .inl ⟨⟨hne, hroom, hle, hrest⟩, q, rfl, hq⟩
        · rw [hlayout]
          exact .inr ⟨fun hall => hnot hall.2.2.2, e, rfl⟩
      · rw [hreserved]
        exact .inr ⟨fun hall => hlt hall.2.2.1, e, rfl⟩

theorem spread_of_suffice {b : Blocks} {past : Nat → Nat} {items : List BatchItem} (h : b.Suffice c past items 0) :
    Spread ((itemFeeds items).flatMap Prod.snd).length (Model.slotsFrom past (itemFeeds items) 0) := by
  intro slot hmem
  obtain ⟨f, hf, -, hlen, -⟩ := Model.mem_slotsFrom hmem
  refine ⟨hlen ▸ List.length_pos_iff.mpr (h.feeds.2 f hf), ?_⟩
  simpa only [Nat.zero_add] using slotsFrom_rows_le hmem

/-- **`forward_batch`** takes its path. -/
theorem staged_forwardBatch {items : List BatchItem} (h : p.Counted c n) (hlayers : c.numLayers = M.numHiddenLayers)
    (hkv : (c.kvDim : Int) = M.kvDim) (hids : ∀ f ∈ itemFeeds items, f.1 < n) :
    Staged (M.forwardBatch c p items) (M.batchPath c p items) [items.length, M.headDims.getD 0 0] := by
  rw [forwardBatch, batchPath]
  apply staged_require Iff.rfl
  intro hne
  apply staged_require Iff.rfl
  intro _
  obtain ⟨hsuffice, q, hlayout, hblocks⟩ | ⟨hnot, e, hlayout⟩ := layoutItems_cases (c := c) h (fun _ => rfl) hids 0
  · apply staged_check (fun _ => ?_) fun hnot => absurd hsuffice hnot
    obtain ⟨hitems, htokens⟩ := hsuffice.feeds
    have hfeeds : itemFeeds items ≠ [] := fun hnil => hne (by rw [hitems, hnil]; rfl)
    have hslotCount := length_slotsFrom (fun i => (p.seqs i).length) (itemFeeds items) 0
    have hnonempty : Model.slotsFrom (fun i => (p.seqs i).length) (itemFeeds items) 0 ≠ [] := by
      rw [← List.length_pos_iff, hslotCount]
      exact List.length_pos_iff.mpr hfeeds
    have hall : (itemFeeds items).flatMap Prod.snd ≠ [] := by
      intro hnil
      obtain ⟨f, hf⟩ := List.exists_mem_of_ne_nil _ hfeeds
      exact htokens f hf (List.flatMap_eq_nil_iff.mp hnil f hf)
    have htable : (fun i => (q.seqs i).blockTable) =
        ((itemFeeds items).foldl (Blocks.grow c fun i => (p.seqs i).length) p.blocks).table := by
      rw [← hblocks]
      rfl
    rw [hlayout, ok_bind, ← htable, ← hsuffice.length_feeds, ← hslotCount]
    exact staged_batchLogits hlayers hkv hall hnonempty (spread_of_suffice hsuffice)
  · apply staged_check (fun hsuffice => absurd hsuffice hnot) fun _ => ?_
    rw [hlayout]
    exact ⟨e, rfl⟩

theorem staged_sampledBatch {items : List BatchItem} (h : p.Counted c n) (hlayers : c.numLayers = M.numHiddenLayers)
    (hkv : (c.kvDim : Int) = M.kvDim) (hids : ∀ f ∈ itemFeeds items, f.1 < n) :
    Staged (M.sampledBatch c p items) (M.sampledPath c p items) () := by
  refine (staged_forwardBatch h hlayers hkv hids).bind fun hpass => ?_
  rw [batchPath, allPass_append] at hpass
  obtain ⟨⟨hne, -, hsuffice, -⟩, hpass⟩ := hpass
  have hpos : 0 < items.length := List.length_pos_iff.mpr hne
  simp only [batchLogitsPath, List.flatten_cons, allPass_append, length_slotsFrom] at hpass
  have hlogits := le_of_linearPath hpass.2.2.2.2.2.1
  rw [hsuffice.length_feeds] at hlogits
  have hbound := maxSize_four
  apply Touches.alone
  apply (touches_loop (n := items.length) fun k _ => touches_touch (Dims.size [items.length, M.headDims.getD 0 0])
    (int64 (k * M.vocabSize : Nat)) M.vocabSize).congr
  rw [size_of_le hlogits, rows_inBuffer_iff (by omega), Nat.mul_le_mul_left_iff hpos]

end Batch

/-- The sizes of the block manager that `Engine` builds for a model. -/
structure Built (M : ShapedModel) (c : PoolSizes) : Prop where
  numLayers : c.numLayers = M.numHiddenLayers
  kvDim : (c.kvDim : Int) = M.kvDim

/-- One layer of width two, with these weights. -/
def tiny (weights : List (String × Dims)) : ShapedModel where
  numHiddenLayers := 1
  hiddenSize := 2
  numAttentionHeads := 1
  numKeyValueHeads := 1
  headDim := 2
  vocabSize := 3
  attentionQkvBias := false
  weights name := (weights.lookup name).bind Shape.ofDims
  dims_pos := by simp

/-- Weights with the shapes of the configuration, but for `embed_tokens` and `o_proj`. -/
def tinyWeights (embed output : Dims) : List (String × Dims) :=
  [("model.embed_tokens.weight", embed), (layerKey 0 "input_layernorm.weight", [2]),
    (projKey 0 "q", [2, 2]), (projKey 0 "k", [2, 2]), (projKey 0 "v", [2, 2]), (projKey 0 "o", output),
    (layerKey 0 "post_attention_layernorm.weight", [2]), (layerKey 0 "mlp.gate_proj.weight", [1, 2]),
    (layerKey 0 "mlp.up_proj.weight", [1, 2]), (layerKey 0 "mlp.down_proj.weight", [2, 1]),
    ("model.norm.weight", [2])]

/-- Blocks of `rows` rows for `tiny`. -/
def tinySizes (rows numBlocks : Nat) (hpos : 0 < rows) : PoolSizes :=
  ⟨1, 2, rows, numBlocks, Nat.one_pos, Nat.two_pos, hpos⟩

/-- A block manager that handed a block to sequence 1. -/
def tinyPool (rows numBlocks : Nat) (hpos : 0 < rows) : Pool Nat :=
  (Pool.machine64 (tinySizes rows numBlocks hpos)).next (Pool.create (tinySizes rows numBlocks hpos)) (.reserve 1 1)

/-- **Every access is in bounds exactly when the tensors, blocks and stores are large enough** that a call comes
to, for every call of `forward` and for every call of `forward_batch` on a block manager in use. -/
theorem inBounds_iff (K : Type) [Zero K] (M : ShapedModel) :
    (∀ ids, Safe (M.forward ids) ↔ AllFit (M.forwardPath ids)) ∧
      ∀ (c : PoolSizes) (n : Nat) (p : Pool K) (items : List BatchItem), M.Built c →
        (Pool.machine64 c).Reachable (fun _ op => op.On n) p → (∀ f ∈ itemFeeds items, f.1 < n) →
        (Safe (M.forwardBatch c p items) ↔ AllFit (M.batchPath c p items)) ∧
          (Safe (M.sampledBatch c p items) ↔ AllFit (M.sampledPath c p items)) := by
  constructor
  · exact fun ids => (staged_forward ids).safe
  · intro c n p items hbuilt hp hids
    have hcounted := Pool.counted_reachable64 hp
    exact ⟨(staged_forwardBatch hcounted hbuilt.numLayers hbuilt.kvDim hids).safe,
      (staged_sampledBatch hcounted hbuilt.numLayers hbuilt.kvDim hids).safe⟩

theorem inBounds_iff_tiny :
    AllFit ((tiny (tinyWeights [3, 2] [2, 2])).forwardPath [0, 2]) ∧
      AllFit ((tiny (tinyWeights [3, 2] [2, 2])).sampledPath (tinySizes 2 3 Nat.two_pos) (tinyPool 2 3 Nat.two_pos)
        [⟨some 0, [0, 1]⟩, ⟨some 1, [2]⟩]) ∧
      ¬AllFit ((tiny (tinyWeights [3, 2] [1, 2])).batchPath (tinySizes 2 3 Nat.two_pos) (tinyPool 2 3 Nat.two_pos)
        [⟨some 0, [0, 1]⟩, ⟨some 1, [2]⟩]) := by
  have hp : (Pool.machine64 (K := Nat) (tinySizes 2 3 Nat.two_pos)).Reachable (fun _ op => op.On 2)
      (tinyPool 2 3 Nat.two_pos) := .next .start (PoolOp.On.of_target rfl Nat.one_lt_two)
  have hbuilt : ∀ weights, (tiny weights).Built (tinySizes 2 3 Nat.two_pos) := fun _ =>
    ⟨rfl, (int64_natCast (by decide)).symm⟩
  have hids : ∀ f ∈ itemFeeds [⟨some 0, [0, 1]⟩, ⟨some 1, [2]⟩], f.1 < 2 := by decide
  refine ⟨?_, ?_, ?_⟩
  · exact ((inBounds_iff Nat (tiny (tinyWeights [3, 2] [2, 2]))).1 [0, 2]).mp (by decide +kernel)
  · exact ((inBounds_iff Nat (tiny (tinyWeights [3, 2] [2, 2]))).2 _ 2 _ _ (hbuilt _) hp hids).2.mp (by decide +kernel)
  · rw [← ((inBounds_iff Nat (tiny (tinyWeights [3, 2] [1, 2]))).2 _ 2 _ _ (hbuilt _) hp hids).1]
    decide +kernel

def InVocab (M : ShapedModel) (ids : List Int) : Prop := ∀ id ∈ ids, 0 ≤ id ∧ id < M.vocabSize

/-- Every call of `forward`, and every batch with the rows of logits that are sampled from, stays in its buffers. -/
def InBounds (K : Type) [Zero K] (M : ShapedModel) : Prop :=
  (∀ ids, M.InVocab ids → Safe (M.forward ids)) ∧
    ∀ (c : PoolSizes) (n : Nat) (p : Pool K) (items : List BatchItem), M.Built c →
      (Pool.machine64 c).Reachable (fun _ op => op.On n) p → (∀ f ∈ itemFeeds items, f.1 < n) →
      (∀ item ∈ items, M.InVocab item.tokens) → Safe (M.sampledBatch c p items)

theorem narrowOutput_not_inBounds :
    (tiny (tinyWeights [3, 2] [1, 2])).forward [0] = .error .outOfBounds ∧
      ¬InBounds Nat (tiny (tinyWeights [3, 2] [1, 2])) := by
  have hrun : (tiny (tinyWeights [3, 2] [1, 2])).forward [0] = .error .outOfBounds := by decide +kernel
  refine ⟨hrun, fun hall => hall.1 [0] (fun id hid => ?_) hrun⟩
  obtain rfl := List.mem_singleton.mp hid
  decide

-- an embedding of `2^64` numbers has no data
example : (tiny (tinyWeights [2 ^ 62, 4] [2, 2])).forward [0] = .error .outOfBounds := by decide +kernel

-- and 16 blocks of `2^60` rows have no store
example : (tiny (tinyWeights [3, 2] [2, 2])).forwardBatch (tinySizes (2 ^ 60) 16 (by decide))
    (tinyPool (2 ^ 60) 16 (by decide)) [⟨some 0, [0]⟩] = .error .outOfBounds := by decide +kernel

end ShapedModel

end InferenceEngine
