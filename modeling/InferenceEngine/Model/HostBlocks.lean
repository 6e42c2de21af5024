import InferenceEngine.KvCache.BlockManager
import InferenceEngine.Model.HostForward

/-!
# The block manager on flat vectors

`BlockManager` keeps the keys and the values of a layer in one vector of floats each, and copies whole rows in and
out of it. Read row by row it is the pool of rows; block tables, allocator and cached prefixes are the same.
-/

namespace InferenceEngine

open Exec

namespace Pool

variable {K : Type} {c : PoolSizes}

/-- What `write` changes. -/
def stores (p : Pool K) : (Nat → Nat → Row K) × (Nat → Nat → Row K) := (p.keys, p.values)

theorem leaves_onAlloc (f : BlockAllocator → Except Error BlockAllocator) :
    Leaves (stores (K := K)) (onAlloc f) := by
  apply leaves_get.bind
  intro p
  apply (leaves_lift _).bind
  intro alloc
  exact leaves_modify fun _ => rfl

theorem leaves_evictLru : Leaves (stores (K := K)) evictLru := by
  apply leaves_get.bind
  intro p
  split
  · exact leaves_pure _
  · apply (leaves_onAlloc _).bind
    intro _
    exact leaves_modify fun _ => rfl

theorem leaves_allocateBlock : Leaves (stores (K := K)) allocateBlock := by
  have htake : Leaves (stores (K := K)) (do
      let taken ← lift (← get).alloc.allocate
      modify fun p => { p with alloc := taken.2 }
      return taken.1) := by
    apply leaves_get.bind
    intro p
    apply (leaves_lift _).bind
    intro taken
    apply Leaves.bind (leaves_modify ?_)
    · intro _
      exact leaves_pure _
    · exact fun _ => rfl
  apply leaves_get.bind
  intro p
  split
  · exact leaves_evictLru.bind fun _ => htake
  · exact htake

theorem leaves_reserve (id nNew : Nat) : Leaves (stores (K := K)) (reserve c id nNew) := by
  apply leaves_get.bind
  intro p
  apply Leaves.forM
  intro _
  apply leaves_allocateBlock.bind
  intro block
  exact leaves_modify fun _ => rfl

theorem leaves_free (id : Nat) : Leaves (stores (K := K)) (free id) := by
  apply leaves_get.bind
  intro p
  have hloop : Leaves (stores (K := K)) (forM (p.seqs id).blockTable fun block => onAlloc fun a => a.free block) :=
    Leaves.forM (fun block => leaves_onAlloc _) _
  apply hloop.bind
  intro _
  exact leaves_modify fun _ => rfl

theorem leaves_acquireFrom (id : Nat) (spans : List (List Int)) (parent : Hash) :
    Leaves (stores (K := K)) (acquireFrom c id spans parent) := by
  induction spans generalizing parent with
  | nil => exact leaves_pure _
  | cons span spans ih =>
    intro p
    rw [acquireFrom, wp_bind, wp_get]
    split
    · rfl
    · next block prefixes _ =>
      have hrest : Leaves (stores (K := K)) (do
          onAlloc fun a => a.incref block
          modify fun p => p.pushBlock id block
          let matched ← acquireFrom c id spans (hashBlock parent span)
          return c.blockSize + matched) := by
        apply (leaves_onAlloc _).bind
        intro _
        apply Leaves.bind (leaves_modify ?_)
        · intro _
          exact (ih _).bind fun _ => leaves_pure _
        · exact fun _ => rfl
      exact hrest { p with prefixes, tick := p.tick + 1 }

theorem leaves_acquireSharedPrefix (id : Nat) (tokens : List Int) :
    Leaves (stores (K := K)) (acquireSharedPrefix c id tokens) := by
  apply leaves_get.bind
  intro p
  dsimp only
  split
  · exact leaves_pure _
  · apply (leaves_acquireFrom _ _ _).bind
    intro matched
    apply Leaves.bind (leaves_modify ?_)
    · exact fun _ => leaves_pure _
    · exact fun _ => rfl

theorem leaves_registerBlock (parent : Hash) (span : List Int) (block : Nat) :
    Leaves (stores (K := K)) (registerBlock c parent span block) := by
  apply leaves_get.bind
  intro p
  split
  · apply (leaves_onAlloc _).bind
    intro _
    apply Leaves.bind (leaves_modify ?_)
    · exact fun _ => leaves_pure _
    · exact fun _ => rfl
  · exact leaves_pure _

theorem leaves_registerPrefix (id : Nat) (tokens : List Int) :
    Leaves (stores (K := K)) (registerPrefix c id tokens) := by
  apply leaves_get.bind
  intro p
  apply Leaves.bind (Leaves.foldlM ?_ _ _)
  · exact fun _ => leaves_pure _
  · exact fun parent pair => leaves_registerBlock parent pair.1 pair.2

end Pool

/-- The first loop of `forward_batch` stores nothing. -/
theorem Model.leaves_layoutItems {K : Type} {c : PoolSizes} (items : List BatchItem) (total : Nat) :
    Leaves (Pool.stores (K := K)) (layoutItems c items total) := by
  induction items generalizing total with
  | nil => exact leaves_pure _
  | cons item items ih =>
    rw [layoutItems]
    split
    · exact leaves_throw _
    · split
      · exact leaves_throw_bind _ _
      · apply leaves_get.bind
        intro p
        apply (Pool.leaves_reserve _ _).bind
        intro _
        apply (ih _).bind
        intro _
        exact leaves_pure _

namespace Host

/-- `BlockManager`, its vectors flat, and the sequences that draw from it. -/
structure BlockManager (K : Type) where
  alloc : BlockAllocator
  keys : Nat → Nat → K
  values : Nat → Nat → K
  prefixes : List (Hash × PrefixEntry)
  prefixHits : Nat
  tick : Nat
  seqs : Nat → SequenceBlocks

namespace BlockManager

variable {K : Type} (c : PoolSizes)

def create [Zero K] : BlockManager K where
  alloc := .create c.numBlocks
  keys := fun _ _ => 0
  values := fun _ _ => 0
  prefixes := []
  prefixHits := 0
  tick := 0
  seqs := fun _ => {}

def writeOne (store : Nat → K) (table : List Nat) (start : Nat) (src : Nat → K) (n : Nat) : Nat → K :=
  (List.range n).foldl (fun store r =>
    Loop.storeRange (c.rowAddr table (start + r) * c.kvDim) c.kvDim (fun d => src (r * c.kvDim + d)) store) store

def gatherOne [Zero K] (store : Nat → K) (table : List Nat) (rows : Nat) : Nn.Tensor K :=
  .ofCells [rows, c.kvDim] <| (List.range rows).foldl (fun out r =>
    Loop.storeRange (r * c.kvDim) c.kvDim (fun d => store (c.rowAddr table r * c.kvDim + d)) out) fun _ => 0

def write (m : BlockManager K) (id layer start : Nat) (k v : Nat → K) (n : Nat) : BlockManager K :=
  let table := (m.seqs id).blockTable
  { m with
    keys := Function.update m.keys layer (writeOne c (m.keys layer) table start k n)
    values := Function.update m.values layer (writeOne c (m.values layer) table start v n) }

def gatherKeys [Zero K] (m : BlockManager K) (id layer rows : Nat) : Nn.Tensor K :=
  gatherOne c (m.keys layer) (m.seqs id).blockTable rows

def gatherValues [Zero K] (m : BlockManager K) (id layer rows : Nat) : Nn.Tensor K :=
  gatherOne c (m.values layer) (m.seqs id).blockTable rows

def rows (m : BlockManager K) : Pool K where
  alloc := m.alloc
  keys := fun layer => readRow c.kvDim (m.keys layer)
  values := fun layer => readRow c.kvDim (m.values layer)
  prefixes := m.prefixes
  prefixHits := m.prefixHits
  tick := m.tick
  seqs := m.seqs

/-- Everything but the vectors, from a pool. -/
def withBlocks (p : Pool K) (m : BlockManager K) : BlockManager K :=
  { m with
    alloc := p.alloc
    prefixes := p.prefixes
    prefixHits := p.prefixHits
    tick := p.tick
    seqs := p.seqs }

/-- A method that leaves the vectors alone is that of the pool: `reserve`, `free`, `acquire_shared_prefix`,
`register_prefix` and `clear_prefix_cache`. -/
def onBlocks {A : Type} (x : EStateM Error (Pool K) A) : EStateM Error (BlockManager K) A :=
  zoom (rows c) withBlocks x

def commit (m : BlockManager K) (id n : Nat) : BlockManager K :=
  { m with
    seqs := Function.update m.seqs id { m.seqs id with length := (m.seqs id).length + n } }

variable {c}

theorem rows_create [Zero K] : rows c (create c : BlockManager K) = Pool.create c := by
  have hzero : (fun r => readRow c.kvDim (fun _ => (0 : K)) r) = fun _ => List.replicate c.kvDim 0 := by
    funext r
    rw [readRow, List.map_const', List.length_range]
  rw [rows, Pool.create]
  exact congrArg₂ (fun keys values => (⟨.create c.numBlocks, fun _ => keys, fun _ => values, [], 0, 0, fun _ => {}⟩ :
    Pool K)) hzero hzero

theorem rows_writeOne {store src : Nat → K} {srcRows : Rows K} {n : Nat} (table : List Nat) (start : Nat)
    (hsrc : ∀ r < n, readRow c.kvDim src r = srcRows.getD r []) :
    readRow c.kvDim (writeOne c store table start src n) =
      c.writeOne (readRow c.kvDim store) table start srcRows n := by
  induction n with
  | zero => rfl
  | succ n ih =>
    have hrow : ∀ buffer : Nat → K, readRow c.kvDim (Loop.storeRange (c.rowAddr table (start + n) * c.kvDim) c.kvDim
        (fun d => src (n * c.kvDim + d)) buffer) =
          Function.update (readRow c.kvDim buffer) (c.rowAddr table (start + n)) (srcRows.getD n []) := by
      intro buffer
      funext x
      have hstore := readRow_storeRange c.kvDim (c.rowAddr table (start + n)) 1 x (fun d => src (n * c.kvDim + d))
        buffer
      rw [Nat.one_mul] at hstore
      rw [hstore]
      by_cases hx : x = c.rowAddr table (start + n)
      · subst hx
        rw [if_pos ⟨le_rfl, Nat.lt_succ_self _⟩, Function.update_self, ← hsrc n (Nat.lt_succ_self n), Nat.sub_self]
        apply List.map_congr_left
        intro e _
        show src (n * c.kvDim + (0 * c.kvDim + e)) = src (n * c.kvDim + e)
        rw [Nat.zero_mul, Nat.zero_add]
      · rw [if_neg (by omega), Function.update_of_ne hx]
    have hrest := ih fun r hr => hsrc r (Nat.lt_succ_of_lt hr)
    rw [writeOne, PoolSizes.writeOne, Loop.foldl_range_succ, Loop.foldl_range_succ, hrow]
    exact congrArg (fun stored => Function.update stored _ _) hrest

theorem rows_write {m : BlockManager K} {k v : Nat → K} {kRows vRows : Rows K} {n : Nat} (id layer start : Nat)
    (hk : ∀ r < n, readRow c.kvDim k r = kRows.getD r []) (hv : ∀ r < n, readRow c.kvDim v r = vRows.getD r []) :
    rows c (m.write c id layer start k v n) = (rows c m).write c id layer start kRows vRows n := by
  have hupdate : ∀ (stores : Nat → Nat → K) (store : Nat → K),
      (fun l => readRow c.kvDim (Function.update stores layer store l)) =
        Function.update (fun l => readRow c.kvDim (stores l)) layer (readRow c.kvDim store) := by
    intro stores store
    funext l
    by_cases hl : l = layer
    · subst hl
      rw [Function.update_self, Function.update_self]
    · rw [Function.update_of_ne hl, Function.update_of_ne hl]
  have hkeys : readRow c.kvDim (writeOne c (m.keys layer) (m.seqs id).blockTable start k n) = _ :=
    rows_writeOne (m.seqs id).blockTable start hk
  have hvalues : readRow c.kvDim (writeOne c (m.values layer) (m.seqs id).blockTable start v n) = _ :=
    rows_writeOne (m.seqs id).blockTable start hv
  simp only [rows, write, Pool.write, hupdate, hkeys, hvalues]

theorem gatherOne_rows [Zero K] (store : Nat → K) (table : List Nat) (n : Nat) :
    (gatherOne c store table n).HasRows c.kvDim (c.gatherOne (readRow c.kvDim store) table n) := by
  apply Nn.Tensor.hasRows_ofCells
  apply List.map_congr_left
  intro r hr
  apply List.map_congr_left
  intro e he
  exact Loop.foldl_storeRange (fun r d => store (c.rowAddr table r * c.kvDim + d)) (List.mem_range.mp hr)
    (List.mem_range.mp he) _

theorem rows_commit (m : BlockManager K) (id n : Nat) : rows c (m.commit id n) = (rows c m).commit id n := rfl

theorem rows_withBlocks {m : BlockManager K} {p : Pool K} (hstores : p.stores = (rows c m).stores) :
    rows c (m.withBlocks p) = p := by
  obtain ⟨hkeys, hvalues⟩ := Prod.mk.inj hstores
  show (⟨p.alloc, (rows c m).keys, (rows c m).values, p.prefixes, p.prefixHits, p.tick, p.seqs⟩ : Pool K) = p
  rw [← hkeys, ← hvalues]

/-- What leaves the stores alone does to the pool of rows what it does to a pool. -/
theorem follows_onBlocks {A : Type} {x : EStateM Error (Pool K) A} (hx : Leaves Pool.stores x) :
    Follows (fun m p => rows c m = p) Eq (onBlocks c x) x := by
  apply follows_zoom hx
  · exact fun m p h => h
  · intro m p p' h hstores
    subst h
    exact rows_withBlocks hstores

end BlockManager

end Host

end InferenceEngine
