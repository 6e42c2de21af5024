import InferenceEngine.KvCache.Rows
import InferenceEngine.Library.Loop
import InferenceEngine.Library.Machine

/-!
# The pool as independent contiguous caches

Seen from outside, every sequence of a block manager is a contiguous cache of its own: rows are written
past the committed ones, and committed in order. Cached blocks remember the rows the registering sequence
held. `Represents` relates a sequence of the pool to its contiguous cache, and every operation keeps it.
-/

namespace InferenceEngine

open Exec

/-- A sequence of its own: per layer the committed rows, and the rows written past them. -/
structure Contiguous (K : Type) where
  rows : Nat → List (Row K × Row K)
  pending : Nat → Nat → Option (Row K × Row K)

namespace Contiguous

variable {K : Type}

def empty : Contiguous K := ⟨fun _ => [], fun _ _ => none⟩

def write (s : Contiguous K) (layer start : Nat) (k v : Rows K) (n : Nat) : Contiguous K :=
  { s with
    pending := Function.update s.pending layer fun r =>
      if start ≤ r ∧ r < start + n then some (k.getD (r - start) [], v.getD (r - start) [])
      else s.pending layer r }

def commit (s : Contiguous K) (n : Nat) : Contiguous K :=
  { s with
    rows := fun layer => s.rows layer ++
      (List.range n).map fun j => (s.pending layer ((s.rows layer).length + j)).getD ([], []) }

end Contiguous

/-- The operations of a block manager. -/
inductive PoolOp (K : Type) where
  | reserve (id n : Nat)
  | write (id layer start : Nat) (k v : Rows K) (n : Nat)
  | commit (id n : Nat)
  | free (id : Nat)
  | acquire (id : Nat) (tokens : List Int)
  | register (id : Nat) (tokens : List Int)
  | clear

/-- A block manager, the contiguous caches of its sequences, and for every block the rows its registering
sequence held there. -/
structure Traced (K : Type) where
  pool : Pool K
  seqs : Nat → Contiguous K
  registered : Nat → Nat → List (Row K × Row K)

namespace PoolOp

variable {K : Type} (c : PoolSizes)

def target : PoolOp K → Option Nat
  | reserve id _ | write id _ _ _ _ _ | commit id _ | free id | acquire id _ | register id _ => some id
  | clear => none

def run : PoolOp K → EStateM Error (Pool K) Unit
  | reserve id n => Pool.reserve c id n
  | write id layer start k v n => modify fun p => p.write c id layer start k v n
  | commit id n => modify fun p => p.commit id n
  | free id => Pool.free id
  | acquire id tokens => do let _ ← Pool.acquireSharedPrefix c id tokens
  | register id tokens => Pool.registerPrefix c id tokens
  | clear => Pool.clearPrefixCache

/-- What a caller must keep to, with `n` sequences. -/
def Allowed (n : Nat) (s : Traced K) : PoolOp K → Prop
  | reserve id _ => id < n
  | write id layer start _ _ len => id < n ∧ layer < c.numLayers ∧ (s.pool.seqs id).length ≤ start ∧
      start + len ≤ (s.pool.seqs id).blockTable.length * c.blockSize
  | commit id len => id < n ∧ ∀ layer < c.numLayers, ∀ j < len,
      (s.seqs id).pending layer ((s.pool.seqs id).length + j) ≠ none
  | free id => id < n
  | acquire id _ => id < n ∧ s.pool.seqs id = {}
  | register id tokens => id < n ∧ tokens.length ≤ (s.pool.seqs id).length
  | clear => True

end PoolOp

namespace Traced

variable {K : Type} (c : PoolSizes)

/-- What an operation that leaves the pool `pool` does to the contiguous caches. An acquiring sequence
takes over the rows the registering sequences held. -/
def after (s : Traced K) (pool : Pool K) : PoolOp K → Traced K
  | .reserve _ _ | .clear => { s with pool }
  | .write id layer start k v n =>
    { s with pool, seqs := Function.update s.seqs id ((s.seqs id).write layer start k v n) }
  | .commit id n => { s with pool, seqs := Function.update s.seqs id ((s.seqs id).commit n) }
  | .free id => { s with pool, seqs := Function.update s.seqs id .empty }
  | .acquire id _ =>
    { s with
      pool
      seqs := Function.update s.seqs id
        { Contiguous.empty with
          rows := fun layer => (pool.seqs id).blockTable.flatMap fun b => s.registered b layer } }
  | .register id tokens =>
    { s with
      pool
      registered := fun b layer =>
        match ((s.pool.seqs id).blockTable.take (tokens.length / c.blockSize)).idxOf? b with
        | some j => sliceRows ((s.seqs id).rows layer) (j * c.blockSize) c.blockSize
        | none => s.registered b layer }

/-- One operation, on the pool and on the contiguous caches. -/
def next (s : Traced K) (op : PoolOp K) : Traced K := s.after c (finalState (op.run c) s.pool) op

def machine [Zero K] : Machine (Traced K) (PoolOp K) where
  start := ⟨.create c, fun _ => .empty, fun _ _ => []⟩
  next := next c

end Traced

namespace Pool

variable {K : Type} {c : PoolSizes} {n : Nat} {p p' : Pool K}

/-- The rows of sequence `id` are those of the contiguous cache `s`. -/
structure Represents (c : PoolSizes) (p : Pool K) (id : Nat) (s : Contiguous K) : Prop where
  length : ∀ layer < c.numLayers, (s.rows layer).length = (p.seqs id).length
  holds : ∀ layer < c.numLayers, p.Holds c layer id (s.rows layer)
  pending : ∀ layer < c.numLayers, ∀ r cell, s.pending layer r = some cell →
    r < (p.seqs id).blockTable.length * c.blockSize ∧ p.rowAt c layer id r = cell

/-- The blocks of the cache hold the registered rows. -/
def HoldsRegistered (c : PoolSizes) (p : Pool K) (registered : Nat → Nat → List (Row K × Row K)) : Prop :=
  ∀ e ∈ p.prefixes, ∀ layer < c.numLayers, (registered e.2.block layer).length = c.blockSize ∧
    ∀ slot < c.blockSize,
      (registered e.2.block layer)[slot]? = some (p.blockCell c layer e.2.block slot)

/-- A sequence none of whose rows change. -/
structure Untouched (c : PoolSizes) (id : Nat) (p p' : Pool K) : Prop where
  length : (p'.seqs id).length = (p.seqs id).length
  table : ∃ more, (p'.seqs id).blockTable = (p.seqs id).blockTable ++ more
  rowAt : ∀ layer, ∀ r < (p.seqs id).blockTable.length * c.blockSize,
    p'.rowAt c layer id r = p.rowAt c layer id r

theorem Represents.of_untouched {id : Nat} {s : Contiguous K} (h : p.Represents c id s) (hp : p.Wf c n)
    (hu : Untouched c id p p') : p'.Represents c id s where
  length layer hl := (h.length layer hl).trans hu.length.symm
  holds layer hl := (h.holds layer hl).congr fun r hr =>
    hu.rowAt layer r (hp.lt_of_lt_length (by rwa [← h.length layer hl]))
  pending layer hl r cell hcell := by
    obtain ⟨hlt, heq⟩ := h.pending layer hl r cell hcell
    obtain ⟨more, hmore⟩ := hu.table
    refine ⟨?_, by rw [hu.rowAt layer r hlt, heq]⟩
    rw [hmore, List.length_append]
    exact hlt.trans_le (Nat.mul_le_mul_right _ (Nat.le_add_right _ _))

theorem HoldsRegistered.congr {registered : Nat → Nat → List (Row K × Row K)}
    (h : p.HoldsRegistered c registered)
    (hblocks : ∀ e ∈ p'.prefixes, ∃ e₀ ∈ p.prefixes, e₀.2.block = e.2.block ∧
      ∀ layer, ∀ slot < c.blockSize,
        p'.blockCell c layer e.2.block slot = p.blockCell c layer e.2.block slot) :
    p'.HoldsRegistered c registered := by
  intro e he layer hl
  obtain ⟨e₀, he₀, hblock, hcell⟩ := hblocks e he
  obtain ⟨hlen, hslots⟩ := h e₀ he₀ layer hl
  rw [hblock] at hlen hslots
  exact ⟨hlen, fun slot hs => by rw [hslots slot hs, hcell layer slot hs]⟩

/-- What the operations on other sequences leave alone, and what the cache keeps. -/
theorem Untouched.of_seqs {id : Nat} (hkeys : p'.keys = p.keys) (hvalues : p'.values = p.values)
    (hseq : p'.seqs id = p.seqs id) : Untouched c id p p' where
  length := by rw [hseq]
  table := ⟨[], by rw [hseq, List.append_nil]⟩
  rowAt layer r _ := rowAt_congr hkeys hvalues (by rw [hseq]) layer r

theorem Grown.untouched {id : Nat} {new : List Nat} (hg : Grown id new p p') (i : Nat) :
    Untouched c i p p' :=
  ⟨hg.length i, hg.table i, fun layer _ hr => hg.rowAt hr layer⟩

end Pool

namespace Traced

open Pool

variable {K : Type} {c : PoolSizes} {n : Nat} {s : Traced K}

/-- The invariant of a run. -/
structure Inv (c : PoolSizes) (n : Nat) (s : Traced K) : Prop where
  wf : s.pool.Wf c n
  represents : ∀ id < n, s.pool.Represents c id (s.seqs id)
  registered : s.pool.HoldsRegistered c s.registered

theorem inv_start [Zero K] (n : Nat) : Inv c n (machine c : Machine (Traced K) (PoolOp K)).start where
  wf := wf_create n
  represents _ _ := ⟨fun _ _ => rfl, fun _ _ r hr => absurd hr (Nat.not_lt_zero r), fun _ _ _ _ h => by
    simp [machine, Contiguous.empty] at h⟩
  registered e he := by simp [machine, Pool.create] at he

/-- What a step has to keep. -/
def Kept (c : PoolSizes) (n : Nat) (s : Traced K) (op : PoolOp K) (p' : Pool K) : Prop :=
  Inv c n (s.after c p' op) ∧ ∀ i < n, op.target ≠ some i → Untouched c i s.pool p'

theorem Inv.reserve (h : Inv c n s) {id len : Nat} (hid : id < n) :
    wp (Pool.reserve c id len) (fun _ => Kept c n s (.reserve id len))
      (fun _ => Kept c n s (.reserve id len)) s.pool := by
  have hkeep : ∀ {new : List Nat} {p' : Pool K}, p'.Wf c n → Grown id new s.pool p' →
      Kept c n s (.reserve id len) p' := by
    intro new p' hwf hg
    refine ⟨⟨hwf, fun i hi => (h.represents i hi).of_untouched h.wf (hg.untouched i), ?_⟩,
      fun i _ _ => hg.untouched i⟩
    exact h.registered.congr fun e he =>
      ⟨e, hg.prefixes.subset he, rfl, fun _ _ _ => cell_congr hg.keys hg.values _ _⟩
  refine wp_mono (wp_reserve len hid h.wf) ?_ ?_
  · rintro _ p' ⟨hwf, new, hg, -⟩
    exact hkeep hwf hg
  · rintro _ p' ⟨hwf, ⟨new, hg⟩, -⟩
    exact hkeep hwf hg

theorem Inv.write (h : Inv c n s) {id layer start len : Nat} (k v : Rows K) (hid : id < n)
    (hstart : (s.pool.seqs id).length ≤ start)
    (hend : start + len ≤ (s.pool.seqs id).blockTable.length * c.blockSize) :
    Kept c n s (.write id layer start k v len) (s.pool.write c id layer start k v len) := by
  have hother : ∀ i < n, i ≠ id → Untouched c i s.pool (s.pool.write c id layer start k v len) :=
    fun i hi hne => ⟨rfl, ⟨[], by simp [Pool.write]⟩,
      fun layer' r hr => write_rowAt_of_ne h.wf hid hstart hend hi hr (.inl hne) layer'⟩
  refine ⟨⟨h.wf.write id layer start k v len, fun i hi => ?_, ?_⟩,
    fun i hi hne => hother i hi fun heq => hne (by rw [heq]; rfl)⟩
  · by_cases hii : i = id
    · subst hii
      have hr := h.represents i hi
      simp only [after, Function.update_self]
      refine ⟨hr.length, fun layer' hl => (hr.holds layer' hl).congr fun r hrl => ?_,
        fun layer' hl r cell hcell => ?_⟩
      · rw [hr.length layer' hl] at hrl
        exact write_rowAt_of_ne h.wf hid hstart hend hi (h.wf.lt_of_lt_length hrl)
          (.inr (.inl (hrl.trans_le hstart))) layer'
      · by_cases hlayer : layer' = layer
        · subst hlayer
          simp only [Contiguous.write, Function.update_self] at hcell
          by_cases hin : start ≤ r ∧ r < start + len
          · rw [if_pos hin, Option.some.injEq] at hcell
            obtain ⟨j, rfl⟩ : ∃ j, r = start + j := ⟨r - start, by omega⟩
            refine ⟨by simp only [Pool.write]; omega, ?_⟩
            rw [write_rowAt_self h.wf hid hstart hend (by omega), ← hcell, Nat.add_sub_cancel_left]
          · rw [if_neg hin] at hcell
            obtain ⟨hlt, heq⟩ := hr.pending layer' hl r cell hcell
            exact ⟨hlt, by rw [write_rowAt_of_ne h.wf hid hstart hend hi hlt (.inr (by omega)), heq]⟩
        · simp only [Contiguous.write, Function.update_of_ne hlayer] at hcell
          obtain ⟨hlt, heq⟩ := hr.pending layer' hl r cell hcell
          exact ⟨hlt, (write_cell_of_layer_ne hlayer _).trans heq⟩
    · simp only [after, Function.update_of_ne hii]
      exact (h.represents i hi).of_untouched h.wf (hother i hi hii)
  · exact h.registered.congr fun e he => ⟨e, he, rfl,
      fun layer' slot hs => write_blockCell h.wf hid hstart hend he hs layer'⟩

theorem Inv.commit (h : Inv c n s) {id len : Nat} (hid : id < n)
    (hpending : ∀ layer < c.numLayers, ∀ j < len,
      (s.seqs id).pending layer ((s.pool.seqs id).length + j) ≠ none) :
    Kept c n s (.commit id len) (s.pool.commit id len) := by
  have hr := h.represents id hid
  -- the last committed row was written into a block the sequence has
  have hle : (s.pool.seqs id).length + len ≤ (s.pool.seqs id).blockTable.length * c.blockSize := by
    rcases Nat.eq_zero_or_pos len with rfl | hlen
    · exact h.wf.length_le id
    · obtain ⟨cell, hcell⟩ := Option.ne_none_iff_exists'.mp (hpending 0 c.numLayers_pos (len - 1) (by omega))
      have := (hr.pending 0 c.numLayers_pos _ cell hcell).1
      omega
  have hother : ∀ i, i ≠ id → Untouched c i s.pool (s.pool.commit id len) := fun i hne =>
    ⟨by rw [commit_length, if_neg hne, Nat.add_zero], ⟨[], by rw [commit_table, List.append_nil]⟩,
      fun layer r _ => commit_rowAt id len i layer r⟩
  refine ⟨⟨h.wf.commit len hid hle, fun i hi => ?_, ?_⟩,
    fun i hi hne => hother i fun heq => hne (by rw [heq]; rfl)⟩
  · by_cases hii : i = id
    · subst hii
      simp only [after, Function.update_self]
      refine ⟨fun layer hl => ?_, fun layer hl r hrl => ?_, fun layer hl r cell hcell => ?_⟩
      · rw [commit_length, if_pos rfl, ← hr.length layer hl]
        simp [Contiguous.commit]
      · have hlength := hr.length layer hl
        simp only [Contiguous.commit, List.length_append, List.length_map, List.length_range] at hrl
        rw [commit_rowAt]
        by_cases hold : r < ((s.seqs i).rows layer).length
        · simp only [Contiguous.commit]
          rw [List.getElem?_append_left hold]
          exact hr.holds layer hl r hold
        · obtain ⟨j, rfl⟩ : ∃ j, r = ((s.seqs i).rows layer).length + j :=
            ⟨r - ((s.seqs i).rows layer).length, by omega⟩
          obtain ⟨cell, hcell⟩ := Option.ne_none_iff_exists'.mp (hpending layer hl j (by omega))
          rw [← hlength] at hcell
          simp only [Contiguous.commit]
          rw [List.getElem?_append_right (by omega), Nat.add_sub_cancel_left, List.getElem?_map,
            List.getElem?_range (by omega), Option.map_some, hcell, Option.getD_some,
            (hr.pending layer hl _ cell hcell).2]
      · obtain ⟨hlt, heq⟩ := hr.pending layer hl r cell hcell
        rw [commit_table, commit_rowAt]
        exact ⟨hlt, heq⟩
    · simp only [after, Function.update_of_ne hii]
      exact (h.represents i hi).of_untouched h.wf (hother i hii)
  · exact h.registered.congr fun e he => ⟨e, he, rfl, fun _ _ _ => rfl⟩

theorem Inv.free (h : Inv c n s) {id : Nat} (hid : id < n) :
    wp (Pool.free id) (fun _ => Kept c n s (.free id)) (fun _ => Kept c n s (.free id)) s.pool := by
  refine wp_mono (wp_free hid h.wf) ?_ fun _ _ hf => hf.elim
  rintro _ p' ⟨hwf, hf⟩
  have hother : ∀ i, i ≠ id → Untouched c i s.pool p' := fun i hne =>
    .of_seqs hf.keys hf.values (hf.others i hne)
  refine ⟨⟨hwf, fun i hi => ?_, ?_⟩, fun i _ hne => hother i fun heq => hne (by rw [heq]; rfl)⟩
  · by_cases hii : i = id
    · subst hii
      simp only [after, Function.update_self]
      exact ⟨fun _ _ => by rw [hf.self]; rfl, fun _ _ r hr => absurd hr (Nat.not_lt_zero r),
        fun _ _ _ _ hcell => by simp [Contiguous.empty] at hcell⟩
    · simp only [after, Function.update_of_ne hii]
      exact (h.represents i hi).of_untouched h.wf (hother i hii)
  · refine h.registered.congr fun e he => ⟨e, ?_, rfl, fun _ _ _ => cell_congr hf.keys hf.values _ _⟩
    rw [← hf.prefixes]
    exact he

theorem Inv.acquire (h : Inv c n s) {id : Nat} (tokens : List Int) (hid : id < n)
    (hfresh : s.pool.seqs id = {}) :
    wp (Pool.acquireSharedPrefix c id tokens) (fun _ => Kept c n s (.acquire id tokens))
      (fun _ => Kept c n s (.acquire id tokens)) s.pool := by
  refine wp_mono (wp_acquireSharedPrefix hid tokens h.wf hfresh) ?_ fun _ _ hf => hf.elim
  generalize hB : matchChain c s.pool.prefixes (c.spans tokens) 0 = blocks
  rintro _ p' ⟨rfl, hwf, ha, hlength⟩
  have htable : (p'.seqs id).blockTable = blocks := by rw [ha.table, hfresh, List.nil_append]
  have hother : ∀ i, i ≠ id → Untouched c i s.pool p' := fun i hne =>
    .of_seqs ha.keys ha.values (ha.others i hne)
  -- every acquired block is a cached one
  have hcached : ∀ b ∈ blocks, ∃ e ∈ s.pool.prefixes, e.2.block = b := by
    intro b hb
    rw [← hB] at hb
    simpa [cacheRefs] using matchChain_subset (c.spans tokens) 0 b hb
  have hlen : ∀ layer < c.numLayers, ∀ b ∈ blocks, (s.registered b layer).length = c.blockSize := by
    intro layer hl b hb
    obtain ⟨e, he, rfl⟩ := hcached b hb
    exact (h.registered e he layer hl).1
  refine ⟨⟨hwf, fun i hi => ?_, ?_⟩, fun i _ hne => hother i fun heq => hne (by rw [heq]; rfl)⟩
  · by_cases hii : i = id
    · subst hii
      simp only [after, Function.update_self, htable]
      have hrows : ∀ layer < c.numLayers,
          (blocks.flatMap fun b => s.registered b layer).length = blocks.length * c.blockSize := by
        intro layer hl
        rw [List.length_flatMap, List.map_congr_left (hlen layer hl), List.map_const',
          List.sum_replicate_nat]
      refine ⟨fun layer hl => by rw [hlength]; exact hrows layer hl, fun layer hl r hr => ?_,
        fun _ _ _ _ hcell => by simp [Contiguous.empty] at hcell⟩
      change r < (blocks.flatMap fun b => s.registered b layer).length at hr
      change (blocks.flatMap fun b => s.registered b layer)[r]? = _
      rw [hrows layer hl] at hr
      have hblock := c.getElem?_of_lt hr
      obtain ⟨e, he, heb⟩ := hcached _ (List.mem_of_getElem? hblock)
      rw [Loop.flatMap_getElem?_of_length (hlen layer hl) hblock, ← heb,
        (h.registered e he layer hl).2 _ (Nat.mod_lt r c.blockSize_pos), rowAt_eq_blockCell, htable, ← heb,
        blockCell, blockCell, cell_congr ha.keys ha.values]
    · simp only [after, Function.update_of_ne hii]
      exact (h.represents i hi).of_untouched h.wf (hother i hii)
  · refine h.registered.congr fun e he => ?_
    obtain ⟨e₀, he₀, -, -, -, hblock⟩ := exists_mem_of_map_untick ha.prefixes he
    exact ⟨e₀, he₀, hblock.symm, fun _ _ _ => cell_congr ha.keys ha.values _ _⟩

theorem Inv.register (h : Inv c n s) {id : Nat} {tokens : List Int} (hid : id < n)
    (hlen : tokens.length ≤ (s.pool.seqs id).length) :
    wp (Pool.registerPrefix c id tokens) (fun _ => Kept c n s (.register id tokens))
      (fun _ => Kept c n s (.register id tokens)) s.pool := by
  refine wp_mono (wp_registerPrefix hid h.wf hlen) ?_ fun _ _ hf => hf.elim
  rintro _ p' ⟨hwf, added, hr⟩
  have hother : ∀ i, Untouched c i s.pool p' := fun i => .of_seqs hr.keys hr.values (by rw [hr.seqs])
  refine ⟨⟨hwf, fun i hi => (h.represents i hi).of_untouched h.wf (hother i), ?_⟩, fun i _ _ => hother i⟩
  intro e he layer hl
  simp only [after] at he ⊢
  have hcell : ∀ slot, p'.blockCell c layer e.2.block slot = s.pool.blockCell c layer e.2.block slot :=
    fun _ => cell_congr hr.keys hr.values _ _
  have hrep := h.represents id hid
  generalize hfull : (s.pool.seqs id).blockTable.take (tokens.length / c.blockSize) = full
  cases hidx : full.idxOf? e.2.block with
  | some j =>
    -- the block is one of the sequence's own full blocks
    rw [List.idxOf?_eq_some_iff] at hidx
    obtain ⟨hj, hget, -⟩ := hidx
    have hj' : j < tokens.length / c.blockSize := by
      rw [← hfull, List.length_take] at hj
      omega
    have hle : j * c.blockSize + c.blockSize ≤ (s.pool.seqs id).length := by
      rw [← Nat.succ_mul]
      exact ((Nat.mul_le_mul_right _ hj').trans (Nat.div_mul_le_self _ _)).trans hlen
    have hblock : (s.pool.seqs id).blockTable.getD j 0 = e.2.block := by
      have hget' := List.getElem?_eq_getElem hj
      rw [hget, ← hfull, List.getElem?_take_of_lt hj'] at hget'
      rw [List.getD_eq_getElem?_getD, hget', Option.getD_some]
    have hlength := hrep.length layer hl
    refine ⟨by simp only [sliceRows, List.length_take, List.length_drop]; omega, fun slot hs => ?_⟩
    have hrow := hrep.holds layer hl (j * c.blockSize + slot) (by omega)
    rw [rowAt_eq_blockCell, Nat.mul_comm, Nat.mul_add_div c.blockSize_pos, Nat.div_eq_of_lt hs,
      Nat.add_zero, Nat.mul_add_mod, Nat.mod_eq_of_lt hs, hblock] at hrow
    change (sliceRows ((s.seqs id).rows layer) (j * c.blockSize) c.blockSize)[slot]? = _
    rw [hcell, ← hrow, sliceRows, List.getElem?_take_of_lt hs, List.getElem?_drop, Nat.mul_comm]
  | none =>
    rw [List.idxOf?_eq_none_iff] at hidx
    have hold : e ∈ s.pool.prefixes := by
      rw [hr.prefixes] at he
      refine (List.mem_append.mp he).resolve_right fun hadd => hidx ?_
      obtain ⟨j, hj, hspan, -⟩ := hr.added e hadd
      have hj' : j < tokens.length / c.blockSize := by
        rw [← c.length_spans]
        exact (List.getElem?_eq_some_iff.mp hspan).1
      rw [← hfull]
      exact List.mem_of_getElem? (by rw [List.getElem?_take_of_lt hj', hj])
    obtain ⟨hlen', hslots⟩ := h.registered e hold layer hl
    exact ⟨hlen', fun slot hs => by rw [hslots slot hs, hcell]⟩

theorem Inv.clear (h : Inv c n s) :
    wp Pool.clearPrefixCache (fun _ => Kept c n s .clear) (fun _ => Kept c n s .clear) s.pool := by
  refine wp_mono (wp_clearPrefixCache h.wf) ?_ fun _ _ hf => hf.elim
  rintro _ p' ⟨hwf, hp'⟩
  have hother : ∀ i, Untouched c i s.pool p' := fun i => by
    rw [hp']
    exact .of_seqs rfl rfl rfl
  refine ⟨⟨hwf, fun i hi => (h.represents i hi).of_untouched h.wf (hother i), ?_⟩, fun i _ _ => hother i⟩
  intro e he
  rw [after, hp'] at he
  simp at he

theorem Inv.step (h : Inv c n s) {op : PoolOp K} (ha : op.Allowed c n s) :
    Kept c n s op (finalState (op.run c) s.pool) := by
  cases op with
  | reserve id len => exact wp_finalState (h.reserve ha)
  | write id layer start k v len => exact h.write k v ha.1 ha.2.2.1 ha.2.2.2
  | commit id len => exact h.commit ha.1 ha.2
  | free id => exact wp_finalState (h.free ha)
  | acquire id tokens =>
    refine wp_finalState ?_
    simp only [PoolOp.run, wp_bind, wp_pure]
    exact h.acquire tokens ha.1 ha.2
  | register id tokens => exact wp_finalState (h.register ha.1 ha.2)
  | clear => exact wp_finalState h.clear

theorem inv_reachable [Zero K] (hs : (machine c).Reachable (fun s op => op.Allowed c n s) s) : Inv c n s :=
  hs.invariant (inv_start n) fun _ _ _ h ha => (h.step ha).1

/-- **The pool refines independent contiguous caches.** In every reachable state what is gathered for a
sequence are its contiguous rows; an operation changes nothing of what is gathered for another sequence;
and a write goes to blocks nobody else refers to. -/
theorem refines_contiguous [Zero K] {c : PoolConfig}
    (hs : (machine c).Reachable (fun s op => op.Allowed c n s) s) :
    (∀ id < n, ∀ layer < c.numLayers,
      s.pool.gatherKeys c id layer (s.pool.seqs id).length = ((s.seqs id).rows layer).map Prod.fst ∧
      s.pool.gatherValues c id layer (s.pool.seqs id).length = ((s.seqs id).rows layer).map Prod.snd) ∧
    (∀ op : PoolOp K, op.Allowed c n s → ∀ i < n, op.target ≠ some i → ∀ layer < c.numLayers,
      let p' := ((machine c).next s op).pool
      (p'.seqs i).length = (s.pool.seqs i).length ∧
      p'.gatherKeys c i layer (p'.seqs i).length =
        s.pool.gatherKeys c i layer (s.pool.seqs i).length ∧
      p'.gatherValues c i layer (p'.seqs i).length =
        s.pool.gatherValues c i layer (s.pool.seqs i).length) ∧
    ∀ (id layer start : Nat) (k v : Rows K) (len : Nat),
      (PoolOp.write id layer start k v len).Allowed c n s → ∀ j < len,
        s.pool.alloc.refCount ((s.pool.seqs id).blockTable.getD ((start + j) / c.blockSize) 0) = 1 := by
  have h := inv_reachable hs
  have hgather : ∀ {s : Traced K}, Inv c n s → ∀ id < n, ∀ layer < c.numLayers,
      s.pool.gatherKeys c id layer (s.pool.seqs id).length = ((s.seqs id).rows layer).map Prod.fst ∧
      s.pool.gatherValues c id layer (s.pool.seqs id).length = ((s.seqs id).rows layer).map Prod.snd :=
    fun h id hid layer hl => ((h.represents id hid).holds layer hl).gather
      ((h.represents id hid).length layer hl).symm
  refine ⟨hgather h, fun op ha i hi hne layer hl => ?_, fun id layer start k v len ha j hj => ?_⟩
  · obtain ⟨-, hu⟩ := h.step ha
    have hu := hu i hi hne
    have hold := h.represents i hi
    have hpool : ((machine c).next s op).pool = finalState (op.run c) s.pool := by
      cases op <;> rfl
    rw [hpool]
    have hrep := hold.of_untouched h.wf hu
    obtain ⟨hk, hv⟩ := hgather h i hi layer hl
    obtain ⟨hk', hv'⟩ := (hrep.holds layer hl).gather (hrep.length layer hl).symm
    exact ⟨hu.length, hk'.trans hk.symm, hv'.trans hv.symm⟩
  · obtain ⟨hid, -, hstart, hend⟩ := ha
    rw [h.wf.tracked.refCount_eq]
    refine h.wf.unshared id hid _ _ (c.getElem?_of_lt (by omega)) ?_
    exact (hstart.trans (Nat.le_add_right _ _)).trans_lt (c.lt_succ_div_mul (start + j))

/-- One sequence is written, committed and registered, and another one shares its block. -/
theorem refines_contiguous_tiny :
    let m : Machine (Traced Nat) (PoolOp Nat) := machine tinyPool
    let s := m.next (m.next (m.next (m.next (m.next m.start (.reserve 0 2))
      (.write 0 0 0 [[1], [2]] [[3], [4]] 2)) (.commit 0 2)) (.register 0 [5, 6])) (.acquire 1 [5, 6])
    s.pool.gatherKeys tinyPool 1 0 (s.pool.seqs 1).length = ((s.seqs 1).rows 0).map Prod.fst ∧
      ((s.seqs 1).rows 0).map Prod.fst = [[1], [2]] := by
  intro m s
  have hreserve : (PoolOp.reserve 0 2).Allowed tinyPool 2 m.start := Nat.zero_lt_two
  have hwrite : (PoolOp.write 0 0 0 [[1], [2]] [[3], [4]] 2).Allowed tinyPool 2
      (m.next m.start (.reserve 0 2)) := by
    refine ⟨?_, ?_, ?_, ?_⟩ <;> decide +kernel
  have hcommit : (PoolOp.commit 0 2).Allowed tinyPool 2 (m.next (m.next m.start (.reserve 0 2))
      (.write 0 0 0 [[1], [2]] [[3], [4]] 2)) := by
    refine ⟨?_, ?_⟩ <;> decide +kernel
  have hregister : (PoolOp.register 0 [5, 6]).Allowed tinyPool 2 (m.next (m.next (m.next m.start
      (.reserve 0 2)) (.write 0 0 0 [[1], [2]] [[3], [4]] 2)) (.commit 0 2)) := by
    refine ⟨?_, ?_⟩ <;> decide +kernel
  have hacquire : (PoolOp.acquire 1 [5, 6]).Allowed tinyPool 2 (m.next (m.next (m.next (m.next m.start
      (.reserve 0 2)) (.write 0 0 0 [[1], [2]] [[3], [4]] 2)) (.commit 0 2)) (.register 0 [5, 6])) := by
    refine ⟨?_, ?_⟩ <;> decide +kernel
  have hs := (((((Machine.Reachable.start (m := m)).next hreserve).next hwrite).next hcommit).next
    hregister).next hacquire
  exact ⟨((refines_contiguous hs).1 1 (by decide) 0 (by decide)).1, by decide +kernel⟩

end Traced

end InferenceEngine
