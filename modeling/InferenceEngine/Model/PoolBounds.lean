import InferenceEngine.Library.Wrap
import InferenceEngine.Model.Accesses
import InferenceEngine.Model.Layout

/-!
# Rows and blocks in 64 bits

The block manager of a batch, with its sizes and offsets as `int64_t` computes them. `reserve` may get fewer
blocks than rows need when their number wraps, and the stores may hold fewer rows than there are. Which blocks a
batch gets is fixed by the lengths, the tables and the supply in front of it.
-/

namespace InferenceEngine

open Exec Wrap Shapes

namespace PoolSizes

variable (c : PoolSizes)

/-- The size of `keys_[layer]` and of `values_[layer]`. -/
def storeSize : Nat := sizeT (int64 (c.numBlocks * c.blockSize * c.kvDim : Nat))

/-- `blocks_for`. -/
def blocksFor64 (tokens : Int) : Int := (int64 (tokens + c.blockSize - 1)).tdiv c.blockSize

/-- The place of a logical row in its table. -/
def tableIndex (logical : Int) : Nat := sizeT (logical.tdiv c.blockSize)

/-- The offset of a logical row in its store. -/
def rowOffset (table : List Nat) (logical : Int) : Int :=
  int64 ((table.getD (c.tableIndex logical) 0 * c.blockSize + logical.tmod c.blockSize) * c.kvDim)

/-- A logical row has a block in the table, and lies in the stores. -/
def RowFits (table : List Nat) (logical : Int) : Prop :=
  InBuffer table.length (c.tableIndex logical) 1 ∧
    InBuffer c.storeSize (c.rowOffset table logical) (floats c.kvDim)

variable {c}

theorem blocksFor64_of_le {rows : Nat} (hrows : rows + c.blockSize ≤ 2 ^ 63) :
    c.blocksFor64 (int64 (rows : Nat)) = c.blocksFor rows := by
  have hpos := c.blockSize_pos
  have hsum : (rows : Int) + c.blockSize - 1 = (rows + c.blockSize - 1 : Nat) := by omega
  rw [blocksFor64, int64_natCast (by omega), hsum, int64_natCast (by omega), ← Int.ofNat_tdiv, blocksFor]

/-- A store whose size does not wrap holds the rows of its blocks. -/
theorem rowFits_of_lt {table : List Nat} {r : Nat} (hstore : c.numBlocks * c.blockSize * c.kvDim < 2 ^ 63)
    (hr : r < table.length * c.blockSize) (hlt : r < 2 ^ 63) (hblocks : ∀ b ∈ table, b < c.numBlocks) :
    c.RowFits table (r : Nat) := by
  have hindex : c.tableIndex (r : Nat) = r / c.blockSize := by
    have hle := Nat.div_le_self r c.blockSize
    rw [tableIndex, ← Int.ofNat_tdiv, sizeT_natCast, Nat.mod_eq_of_lt (by omega)]
  have hrow := row_le (w := c.kvDim) (c.rowAddr_lt hr hblocks)
  have hoff : c.rowOffset table (r : Nat) = (c.rowAddr table r * c.kvDim : Nat) := by
    rw [← int64_natCast (by omega : c.rowAddr table r * c.kvDim < 2 ^ 63), rowOffset, hindex, ← Int.ofNat_tmod,
      rowAddr]
    push_cast
    rfl
  have hfloats : floats c.kvDim ≤ c.kvDim := by
    rw [floats, sizeT]
    omega
  have hsize : c.storeSize = c.numBlocks * c.blockSize * c.kvDim := by
    rw [storeSize, sizeT_int64, sizeT_natCast, Nat.mod_eq_of_lt (by omega)]
  constructor
  · rw [hindex, inBuffer_one]
    exact Nat.div_lt_of_lt_mul (by rwa [Nat.mul_comm])
  · rw [hoff, hsize, inBuffer_natCast]
    omega

end PoolSizes

namespace Pool

variable {K : Type} (c : PoolSizes)

/-- `reserve`. -/
def reserve64 (id nNew : Nat) : EStateM Error (Pool K) Unit := do
  let seq := (← get).seqs id
  let need := c.blocksFor64 (int64 (seq.length + nNew : Nat))
  forM (List.range (need - seq.blockTable.length).toNat) fun _ => do
    let block ← allocateBlock
    modify fun p => p.pushBlock id block

/-- The operations of a block manager, with that `reserve`. -/
def run64 : PoolOp K → EStateM Error (Pool K) Unit
  | .reserve id nNew => reserve64 c id nNew
  | op => op.run c

def machine64 [Zero K] : Machine (Pool K) (PoolOp K) where
  start := create c
  next p op := finalState (run64 c op) p

variable {c} {n : Nat} {p : Pool K}

theorem Counted.wp_reserve64 (h : p.Counted c n) {id : Nat} (hid : id < n) (nNew : Nat) {d : Nat}
    (hd : (c.blocksFor64 (int64 ((p.seqs id).length + nNew : Nat)) - (p.seqs id).blockTable.length).toNat = d) :
    wp (reserve64 c id nNew) (fun _ p' => p'.Counted c n ∧ d ≤ p.supply.length ∧ Taken id d p p')
      (fun _ p' => p'.Counted c n ∧ p.supply.length < d) p := by
  rw [reserve64, wp_bind, wp_get]
  dsimp only
  rw [hd]
  exact wp_mono (h.wp_takeBlocks hid d) (fun _ _ hok => hok) fun _ _ he => ⟨he.2.1, he.2.2.1⟩

theorem counted_reachable64 [Zero K] (hp : (machine64 c).Reachable (fun _ op => op.On n) p) : p.Counted c n := by
  apply hp.invariant (counted_create n)
  intro q op _ hq hop
  cases op with
  | reserve id nNew =>
    apply wp_finalState
    exact wp_mono (hq.wp_reserve64 (hop id rfl) nNew rfl) (fun _ _ h => h.1) fun _ _ h => h.1
  | _ => exact hq.next hop

end Pool

/-! ### The blocks of a batch -/

/-- The block tables of the sequences, and the blocks that can be handed out, in order. -/
structure Blocks where
  table : Nat → List Nat
  supply : List Nat

def Pool.blocks {K : Type} (p : Pool K) : Blocks := ⟨fun i => (p.seqs i).blockTable, p.supply⟩

namespace Blocks

variable (c : PoolSizes) (past : Nat → Nat)

/-- The number of blocks the rows of a feed take. -/
def taken (b : Blocks) (f : Feed) : Nat :=
  (c.blocksFor64 (int64 (past f.1 + f.2.length : Nat)) - (b.table f.1).length).toNat

def grow (b : Blocks) (f : Feed) : Blocks where
  table := Function.update b.table f.1 (b.table f.1 ++ b.supply.take (b.taken c past f))
  supply := b.supply.drop (b.taken c past f)

/-- The blocks suffice for the items behind `total` rows, which all have a sequence and tokens. -/
def Suffice (b : Blocks) : List BatchItem → Nat → Prop
  | [], _ => True
  | item :: items, total => ∃ id, item.blocks = some id ∧ item.tokens ≠ [] ∧ total + item.tokens.length ≤ maxSize 8 ∧
      b.taken c past (id, item.tokens) ≤ b.supply.length ∧
      (b.grow c past (id, item.tokens)).Suffice items (total + item.tokens.length)

/-- All blocks are blocks of the pool. -/
structure Within (b : Blocks) : Prop where
  table : ∀ i, ∀ x ∈ b.table i, x < c.numBlocks
  supply : ∀ x ∈ b.supply, x < c.numBlocks

variable {c past} {b : Blocks}

theorem table_grow_self (f : Feed) : (b.grow c past f).table f.1 = b.table f.1 ++ b.supply.take (b.taken c past f) :=
  Function.update_self ..

theorem table_grow_of_ne {i : Nat} {f : Feed} (h : i ≠ f.1) : (b.grow c past f).table i = b.table i :=
  Function.update_of_ne h ..

/-- Items that get blocks have a sequence and tokens. -/
theorem Suffice.feeds {items : List BatchItem} {total : Nat} (h : b.Suffice c past items total) :
    items = feedItems (itemFeeds items) ∧ ∀ f ∈ itemFeeds items, f.2 ≠ [] := by
  induction items generalizing b total with
  | nil => exact ⟨rfl, List.forall_mem_nil _⟩
  | cons item items ih =>
    obtain ⟨blocks, tokens⟩ := item
    obtain ⟨id, hid, htokens, -, -, hrest⟩ := h
    obtain ⟨hitems, hall⟩ := ih hrest
    have hblocks : blocks = some id := hid
    subst hblocks
    change _ = (⟨some id, tokens⟩ : BatchItem) :: feedItems (itemFeeds items) ∧
      ∀ f ∈ (id, tokens) :: itemFeeds items, f.2 ≠ []
    rw [← hitems]
    exact ⟨rfl, List.forall_mem_cons.mpr ⟨htokens, hall⟩⟩

theorem Suffice.length_feeds {items : List BatchItem} {total : Nat} (h : b.Suffice c past items total) :
    (itemFeeds items).length = items.length := by
  conv_rhs => rw [h.feeds.1, feedItems, List.length_map]

theorem Within.grow (h : b.Within c) (f : Feed) : (b.grow c past f).Within c where
  table i x hx := by
    by_cases hi : i = f.1
    · rw [hi, table_grow_self, List.mem_append] at hx
      exact hx.elim (h.table _ x) fun hx => h.supply x (List.mem_of_mem_take hx)
    · rw [table_grow_of_ne hi] at hx
      exact h.table i x hx
  supply x hx := h.supply x (List.mem_of_mem_drop hx)

theorem Within.foldl (h : b.Within c) (feeds : List Feed) : (feeds.foldl (Blocks.grow c past) b).Within c := by
  induction feeds generalizing b with
  | nil => exact h
  | cons f feeds ih => exact ih (h.grow f)

theorem length_table_le (feeds : List Feed) (i : Nat) :
    (b.table i).length ≤ ((feeds.foldl (Blocks.grow c past) b).table i).length := by
  induction feeds generalizing b with
  | nil => exact le_rfl
  | cons f feeds ih =>
    refine le_trans ?_ ih
    by_cases hi : i = f.1
    · rw [hi, table_grow_self, List.length_append]
      exact Nat.le_add_right _ _
    · rw [table_grow_of_ne hi]

/-- Blocks that suffice cover the rows of every item. -/
theorem Suffice.covered {items : List BatchItem} {total : Nat} (h : b.Suffice c past items total) {slot : BatchSlot}
    (hmem : slot ∈ Model.slotsFrom past (itemFeeds items) total)
    (hrows : slot.past + slot.len + c.blockSize ≤ 2 ^ 63) : slot.past + slot.len ≤
      (((itemFeeds items).foldl (Blocks.grow c past) b).table slot.blocks).length * c.blockSize := by
  induction items generalizing b total with
  | nil => cases hmem
  | cons item items ih =>
    obtain ⟨blocks, tokens⟩ := item
    obtain ⟨id, hid, -, -, hle, hrest⟩ := h
    have hblocks : blocks = some id := hid
    subst hblocks
    have hfeeds : itemFeeds (⟨some id, tokens⟩ :: items) = (id, tokens) :: itemFeeds items := rfl
    rw [hfeeds, Model.slotsFrom, List.mem_cons] at hmem
    rw [hfeeds, List.foldl_cons]
    obtain rfl | hmem := hmem
    · change past id + tokens.length + c.blockSize ≤ 2 ^ 63 at hrows
      have hgrown : (b.grow c past (id, tokens)).table id = b.table id ++ b.supply.take (b.taken c past (id, tokens)) :=
        table_grow_self _
      have htaken : b.taken c past (id, tokens) = c.blocksFor (past id + tokens.length) - (b.table id).length := by
        rw [taken, PoolSizes.blocksFor64_of_le hrows]
        exact Int.toNat_sub _ _
      change b.taken c past (id, tokens) ≤ b.supply.length at hle
      have hneed : c.blocksFor (past id + tokens.length) ≤ ((b.grow c past (id, tokens)).table id).length := by
        rw [hgrown, List.length_append, List.length_take, Nat.min_eq_left hle]
        omega
      exact c.blocksFor_le_iff.mp (hneed.trans (length_table_le _ id))
    · exact ih hrest hmem

end Blocks

namespace Pool

variable {K : Type} {c : PoolSizes} {n : Nat} {p : Pool K}

theorem Counted.within (h : p.Counted c n) : p.blocks.Within c where
  table i x hx := by
    by_cases hi : i < n
    · exact h.tracked.lt x (mem_refs_of_mem_table hi hx)
    · change x ∈ (p.seqs i).blockTable at hx
      rw [h.fresh i (not_lt.mp hi)] at hx
      cases hx
  supply x hx := ((mem_supply h).mp hx).1

/-- **With a store that holds its blocks every row of a batch fits**, unless the count of its blocks wraps. -/
theorem Counted.rowFits {items : List BatchItem} (h : p.Counted c n)
    (hstore : c.numBlocks * c.blockSize * c.kvDim < 2 ^ 63)
    (hsuffice : p.blocks.Suffice c (fun i => (p.seqs i).length) items 0) {slot : BatchSlot}
    (hmem : slot ∈ Model.slotsFrom (fun i => (p.seqs i).length) (itemFeeds items) 0)
    (hrows : slot.past + slot.len + c.blockSize ≤ 2 ^ 63) {r : Nat} (hr : r < slot.past + slot.len) :
    c.RowFits (((itemFeeds items).foldl (Blocks.grow c fun i => (p.seqs i).length) p.blocks).table slot.blocks)
      (r : Nat) := by
  have hcovered := hsuffice.covered hmem hrows
  exact PoolSizes.rowFits_of_lt hstore (hr.trans_le hcovered) (by omega) ((h.within.foldl _).table slot.blocks)

end Pool

end InferenceEngine
