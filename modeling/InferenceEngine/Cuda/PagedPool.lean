import InferenceEngine.Cuda.BlockManager
import InferenceEngine.KvCache.Refinement
import InferenceEngine.Model.Buffers
import Mathlib.Data.List.GetD

/-!
# The device pool refines the pool of rows

Read row by row, a device pool is a `Pool` without cached prefixes. The scatter kernel writes rows as
`write` does, the gather kernel reads them as `gather_keys` and `gather_values` do, and `reserve` takes the
same blocks. The order of the threads shows in none of it.
-/

namespace InferenceEngine

open Exec
open Loop (row_inj lt_work index_div index_mod)

namespace CudaKernels

variable {K : Type} {blockTable : Nat → Nat} {src pool out : Nat → K} {start n rows blockSize kvDim : Nat}
  {order : Nat → List Nat}

/-- The physical row a table maps a logical row to. -/
def physicalRow (blockTable : Nat → Nat) (blockSize r : Nat) : Nat :=
  blockTable (r / blockSize) * blockSize + r % blockSize

/-! ### Scatter -/

def ScatterWrites (blockTable : Nat → Nat) (start n blockSize kvDim idx a : Nat) : Prop :=
  idx < n * kvDim ∧ a = physicalRow blockTable blockSize (start + idx / kvDim) * kvDim + idx % kvDim

/-- **No cell has two writers** when the new rows have physical rows of their own. -/
theorem independent_scatter (hinj : ∀ r < n, ∀ r' < n, physicalRow blockTable blockSize (start + r) =
      physicalRow blockTable blockSize (start + r') → r = r') :
    Kernel.Independent (pagedScatterThread blockTable src start n blockSize kvDim)
      (ScatterWrites blockTable start n blockSize kvDim) := by
  have hact : pagedScatterThread blockTable src start n blockSize kvDim = fun idx pool =>
      if idx < n * kvDim then Function.update pool
        (physicalRow blockTable blockSize (start + idx / kvDim) * kvDim + idx % kvDim)
        (src (idx / kvDim * kvDim + idx % kvDim)) else pool := by
    funext idx pool
    rw [pagedScatterThread]
    by_cases hidx : idx < n * kvDim
    · rw [if_neg (by omega), if_pos hidx]
      rfl
    · rw [if_pos (by omega), if_neg hidx]
  rw [hact]
  apply Kernel.independent_store
  intro i j hi hj heq
  have hpos : 0 < kvDim := Nat.pos_of_mul_pos_left (Nat.zero_lt_of_lt hi)
  obtain ⟨hrow, hmod⟩ := row_inj (Nat.mod_lt i hpos) (Nat.mod_lt j hpos) heq
  have hdiv := hinj _ (Nat.div_lt_of_lt_mul (Nat.mul_comm n kvDim ▸ hi)) _
    (Nat.div_lt_of_lt_mul (Nat.mul_comm n kvDim ▸ hj)) hrow
  rw [← Nat.div_add_mod i kvDim, ← Nat.div_add_mod j kvDim, hdiv, hmod]

theorem pagedScatter_perm (hinj : ∀ r < n, ∀ r' < n, physicalRow blockTable blockSize (start + r) =
      physicalRow blockTable blockSize (start + r') → r = r') {order' : Nat → List Nat}
    (horder : ∀ threads, (order threads).Perm (List.range threads))
    (horder' : ∀ threads, (order' threads).Perm (List.range threads)) :
    pagedScatter order blockTable src start n blockSize kvDim pool =
      pagedScatter order' blockTable src start n blockSize kvDim pool := by
  unfold pagedScatter
  split
  · rfl
  · exact (independent_scatter hinj).launch_perm ((horder _).trans (horder' _).symm)
      ((horder _).nodup_iff.mpr List.nodup_range) _

section

variable (hinj : ∀ r < n, ∀ r' < n, physicalRow blockTable blockSize (start + r) =
  physicalRow blockTable blockSize (start + r') → r = r')

include hinj

theorem pagedScatter_self (horder : ∀ threads, (order threads).Perm (List.range threads)) {r e : Nat} (hr : r < n)
    (he : e < kvDim) :
    pagedScatter order blockTable src start n blockSize kvDim pool
      (physicalRow blockTable blockSize (start + r) * kvDim + e) = src (r * kvDim + e) := by
  have hwork := lt_work hr he
  have hmem : r * kvDim + e ∈ order (threadsFor (n * kvDim)) :=
    (horder _).mem_iff.mpr (List.mem_range.mpr (hwork.trans_le (le_threadsFor _)))
  rw [pagedScatter, if_neg (by omega), (independent_scatter hinj).launch_of_writes
    ((horder _).nodup_iff.mpr List.nodup_range) hmem ⟨hwork, by rw [index_div he, index_mod he]⟩,
    pagedScatterThread, if_neg (by omega)]
  simp only [index_div he, index_mod he]
  exact Function.update_self _ _ _

theorem pagedScatter_of_ne {a e : Nat}
    (hne : ∀ r < n, physicalRow blockTable blockSize (start + r) ≠ a) (he : e < kvDim) :
    pagedScatter order blockTable src start n blockSize kvDim pool (a * kvDim + e) =
      pool (a * kvDim + e) := by
  unfold pagedScatter
  split
  · rfl
  · apply (independent_scatter hinj).launch_of_not_writes
    rintro idx - ⟨hidx, heq⟩
    have hrow := (row_inj he (Nat.mod_lt idx (Nat.zero_lt_of_lt he)) heq).1
    exact hne _ (Nat.div_lt_of_lt_mul (Nat.mul_comm n kvDim ▸ hidx)) hrow.symm

end

/-! ### Gather -/

theorem pagedGather_row (horder : ∀ threads, (order threads).Perm (List.range threads)) {r e : Nat}
    (hr : r < rows) (he : e < kvDim) :
    pagedGather order blockTable pool rows blockSize kvDim out (r * kvDim + e) =
      pool (physicalRow blockTable blockSize r * kvDim + e) := by
  have hwork := lt_work hr he
  have hmem : r * kvDim + e ∈ order (threadsFor (rows * kvDim)) :=
    (horder _).mem_iff.mpr (List.mem_range.mpr (hwork.trans_le (le_threadsFor _)))
  have hact : pagedGatherThread blockTable pool rows blockSize kvDim = fun idx out =>
      if idx < rows * kvDim then Function.update out idx
        (pool (physicalRow blockTable blockSize (idx / kvDim) * kvDim + idx % kvDim)) else out := by
    funext idx out
    rw [pagedGatherThread]
    by_cases hidx : idx < rows * kvDim
    · rw [if_neg (by omega), if_pos hidx]
      rfl
    · rw [if_pos (by omega), if_neg hidx]
  rw [pagedGather, if_neg (by omega), hact]
  have hind := Kernel.independent_store (fun idx => idx < rows * kvDim) (fun idx => idx)
    (fun idx => pool (physicalRow blockTable blockSize (idx / kvDim) * kvDim + idx % kvDim))
    fun _ _ _ _ heq => heq
  rw [hind.launch_of_writes ((horder _).nodup_iff.mpr List.nodup_range) hmem ⟨hwork, rfl⟩, if_pos hwork,
    Function.update_self, index_div he, index_mod he]

end CudaKernels

namespace GpuPool

open CudaKernels

variable {K : Type} {c : PoolSizes} (sched : Kernel.Schedule) {m : GpuPool K}

def toPool (c : PoolSizes) (m : GpuPool K) : Pool K where
  alloc := m.alloc
  keys layer := readRow c.kvDim (m.keys layer)
  values layer := readRow c.kvDim (m.values layer)
  prefixes := []
  prefixHits := 0
  tick := 0
  seqs := m.seqs

theorem wf_create [Zero K] (n : Nat) (keys values : Nat → Nat → K) :
    ((create c keys values).toPool c).Wf c n :=
  (Pool.wf_create n).congr rfl rfl rfl

/-! ### Blocks -/

theorem simulates_allocate :
    Simulates (toPool c) (allocate : EStateM Error (GpuPool K) Nat) Pool.allocateBlock := by
  intro m Q E h
  rw [Pool.allocateBlock, wp_bind, wp_get] at h
  rw [allocate]
  simp only [wp_bind, wp_get, wp_lift, wp_modify, wp_pure]
  split at h
  · -- without cached prefixes there is nothing to give up for a block
    rw [wp_bind, Pool.evictLru, wp_bind, wp_get] at h
    change wp (pure ()) _ _ (m.toPool c) at h
    simp only [wp_bind, wp_get, wp_lift, wp_modify, wp_pure] at h
    exact h
  · simp only [wp_bind, wp_get, wp_lift, wp_modify, wp_pure] at h
    exact h

theorem simulates_reserve (id nNew : Nat) :
    Simulates (toPool c) (reserve c id nNew : EStateM Error (GpuPool K) Unit) (Pool.reserve c id nNew) := by
  intro m Q E h
  rw [Pool.reserve] at h
  rw [reserve]
  simp only [wp_bind, wp_get] at h ⊢
  apply Simulates.forM (g := fun _ => do
    let block ← Pool.allocateBlock
    modify fun p => p.pushBlock id block) ?_ _ m Q E h
  intro _
  exact simulates_allocate.bind fun block => simulates_modify fun m => rfl

/-! ### Rows -/

theorem uploadTable_frame (id : Nat) : (m.uploadTable id).keys = m.keys ∧
    (m.uploadTable id).values = m.values ∧ (m.uploadTable id).seqs = m.seqs ∧
    (m.uploadTable id).alloc = m.alloc := by
  simp only [uploadTable]
  split <;> exact ⟨rfl, rfl, rfl, rfl⟩

@[simp] theorem uploadTable_toPool (id : Nat) : (m.uploadTable id).toPool c = m.toPool c := by
  simp only [uploadTable]
  split <;> rfl

/-- After an upload the device table starts with the table of the sequence. -/
theorem tableEntry_uploadTable {id i : Nat} (hi : i < (m.seqs id).blockTable.length) :
    (m.uploadTable id).tableEntry i = (m.seqs id).blockTable.getD i 0 := by
  have hne : (m.seqs id).blockTable ≠ [] := List.ne_nil_of_length_pos (Nat.zero_lt_of_lt hi)
  rw [uploadTable]
  simp only [hne, if_false, tableEntry]
  rw [List.getD_append _ _ _ _ hi]

theorem physicalRow_uploadTable {id r : Nat} (hr : r < (m.seqs id).blockTable.length * c.blockSize) :
    physicalRow (m.uploadTable id).tableEntry c.blockSize r = c.rowAddr (m.seqs id).blockTable r := by
  have hlt : r / c.blockSize < (m.seqs id).blockTable.length :=
    (Nat.div_lt_iff_lt_mul c.blockSize_pos).mpr hr
  rw [physicalRow, tableEntry_uploadTable hlt, PoolSizes.rowAddr]

/-- Behind the committed rows of a sequence every row has a physical row of its own. -/
theorem physicalRow_inj {n id start len : Nat} (h : (m.toPool c).Wf c n) (hid : id < n)
    (hstart : (m.seqs id).length ≤ start)
    (hend : start + len ≤ (m.seqs id).blockTable.length * c.blockSize) :
    ∀ r < len, ∀ r' < len, physicalRow (m.uploadTable id).tableEntry c.blockSize (start + r) =
      physicalRow (m.uploadTable id).tableEntry c.blockSize (start + r') → r = r' := by
  intro r hr r' hr' heq
  rw [physicalRow_uploadTable (by omega), physicalRow_uploadTable (by omega)] at heq
  have hnew : start + r' < (m.seqs id).blockTable.length * c.blockSize := by omega
  have hnew' : start + r < (m.seqs id).blockTable.length * c.blockSize := by omega
  have hle : (m.seqs id).length ≤ start + r' := by omega
  have howned := (h.rowAddr_owned hid hle hnew hid hnew' heq).2
  omega

theorem readRow_pagedScatter [Zero K] {id start n launch : Nat} {src : Rows K} {pool : Nat → K}
    (hwidth : ∀ row ∈ src, row.length = c.kvDim) (hlen : src.length = n)
    (hend : start + n ≤ (m.seqs id).blockTable.length * c.blockSize)
    (hinj : ∀ r < n, ∀ r' < n, physicalRow (m.uploadTable id).tableEntry c.blockSize (start + r) =
      physicalRow (m.uploadTable id).tableEntry c.blockSize (start + r') → r = r') :
    readRow c.kvDim (pagedScatter (sched.order launch) (m.uploadTable id).tableEntry (pointerTo src) start n
        c.blockSize c.kvDim pool) =
      c.writeOne (readRow c.kvDim pool) (m.seqs id).blockTable start src n := by
  have haddr : ∀ r < n, physicalRow (m.uploadTable id).tableEntry c.blockSize (start + r) =
      c.rowAddr (m.seqs id).blockTable (start + r) := fun r hr => physicalRow_uploadTable (by omega)
  funext a
  by_cases hnew : ∃ r < n, c.rowAddr (m.seqs id).blockTable (start + r) = a
  · obtain ⟨r, hr, rfl⟩ := hnew
    rw [c.writeOne_self hr fun r' hr' heq => hinj r' hr' r hr (by rw [haddr r hr, haddr r' hr', heq])]
    apply readRow_eq hwidth (hlen ▸ hr)
    intro e he
    rw [← haddr r hr]
    exact pagedScatter_self hinj (sched.perm launch) hr he
  · simp only [not_exists, not_and] at hnew
    rw [c.writeOne_of_forall_ne hnew]
    apply readRow_congr
    intro e he
    apply pagedScatter_of_ne hinj _ he
    intro r hr
    rw [haddr r hr]
    exact hnew r hr

/-- **A scatter writes rows** as `write` does on the pool of rows. -/
theorem write_toPool [Zero K] {n id start len : Nat} (layer : Nat) {k v : Rows K} (h : (m.toPool c).Wf c n)
    (hid : id < n) (hstart : (m.seqs id).length ≤ start)
    (hend : start + len ≤ (m.seqs id).blockTable.length * c.blockSize)
    (hk : ∀ row ∈ k, row.length = c.kvDim) (hv : ∀ row ∈ v, row.length = c.kvDim)
    (hklen : k.length = len) (hvlen : v.length = len) :
    (m.write c sched id layer start k v len).toPool c = (m.toPool c).write c id layer start k v len := by
  have hinj := physicalRow_inj h hid hstart hend
  have hlayers : ∀ (buffers : Nat → Nat → K) (src : Rows K) (launch : Nat),
      (∀ row ∈ src, row.length = c.kvDim) → src.length = len →
      (fun layer' => readRow c.kvDim (Function.update buffers layer (pagedScatter (sched.order launch)
        (m.uploadTable id).tableEntry (pointerTo src) start len c.blockSize c.kvDim (buffers layer)) layer')) =
        Function.update (fun layer' => readRow c.kvDim (buffers layer')) layer
          (c.writeOne (readRow c.kvDim (buffers layer)) (m.seqs id).blockTable start src len) := by
    intro buffers src launch hwidth hlen
    funext layer'
    rw [Function.apply_update fun _ => readRow c.kvDim, readRow_pagedScatter sched hwidth hlen hend hinj]
  obtain ⟨hkeys, hvalues, hseqs, halloc⟩ := uploadTable_frame (m := m) id
  rw [write]
  split
  · rename_i hzero
    subst hzero
    simp [Pool.write, PoolSizes.writeOne]
  · simp only [toPool, Pool.write, hkeys, hvalues, hseqs, halloc, hlayers m.keys k _ hk hklen,
      hlayers m.values v _ hv hvlen]

@[simp] theorem gather_toPool (id layer rows : Nat) (s : Scratch K) :
    (m.gather c sched id layer rows s).1.toPool c = m.toPool c := by
  rw [gather]
  split
  · rfl
  · exact uploadTable_toPool id

/-- **A gather reads rows** as `gather_keys` and `gather_values` do on the pool of rows. -/
theorem gather_rows (id layer rows : Nat) (s : Scratch K)
    (hrows : rows ≤ (m.seqs id).blockTable.length * c.blockSize) :
    readRows c.kvDim rows (m.gather c sched id layer rows s).2.keys =
        (m.toPool c).gatherKeys c id layer rows ∧
      readRows c.kvDim rows (m.gather c sched id layer rows s).2.values =
        (m.toPool c).gatherValues c id layer rows := by
  have hread : ∀ (buffer out : Nat → K) (launch : Nat),
      readRows c.kvDim rows (pagedGather (sched.order launch) (m.uploadTable id).tableEntry buffer rows
        c.blockSize c.kvDim out) = c.gatherOne (readRow c.kvDim buffer) (m.seqs id).blockTable rows := by
    intro buffer out launch
    apply List.map_congr_left
    intro r hr
    rw [List.mem_range] at hr
    apply List.map_congr_left
    intro e he
    rw [pagedGather_row (sched.perm launch) hr (List.mem_range.mp he),
      physicalRow_uploadTable (hr.trans_le hrows)]
  rw [gather]
  split
  · rename_i hzero
    subst hzero
    exact ⟨rfl, rfl⟩
  · obtain ⟨hkeys, hvalues, -, -⟩ := uploadTable_frame (m := m) id
    simp only [hkeys, hvalues, hread]
    exact ⟨rfl, rfl⟩

/-- A gather that fits does not overrun the scratch buffers. -/
theorem gather_overrun (id layer : Nat) {rows : Nat} {s : Scratch K} (hfits : rows * c.kvDim ≤ s.size) :
    (m.gather c sched id layer rows s).2.overrun = s.overrun ∧
      (m.gather c sched id layer rows s).2.size = s.size := by
  have hnone : s.overruns (rows * c.kvDim) = false := by
    rw [Scratch.overruns, List.any_eq_false]
    intro idx _ hover
    simp only [Bool.and_eq_true, decide_eq_true_eq] at hover
    omega
  rw [gather]
  split
  · exact ⟨rfl, rfl⟩
  · simp [hnone]

end GpuPool

end InferenceEngine
