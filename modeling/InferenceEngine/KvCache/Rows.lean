import InferenceEngine.KvCache.Sharing

/-!
# Rows of a sequence

A cell is the key row and the value row at a physical row of a layer. A write past the committed rows
of a sequence changes the cells it is meant for and no cell that any other row of any sequence, or any
cached block, is read from. Every other operation leaves the cells and the committed rows alone.
-/

namespace InferenceEngine

open Exec

namespace PoolSizes

variable (c : PoolSizes) {K : Type}

theorem rowAddr_div (table : List Nat) (r : Nat) :
    c.rowAddr table r / c.blockSize = table.getD (r / c.blockSize) 0 := by
  rw [rowAddr, Nat.mul_comm, Nat.mul_add_div c.blockSize_pos,
    Nat.div_eq_of_lt (Nat.mod_lt _ c.blockSize_pos), Nat.add_zero]

theorem rowAddr_mod (table : List Nat) (r : Nat) :
    c.rowAddr table r % c.blockSize = r % c.blockSize := by
  rw [rowAddr, Nat.mul_comm, Nat.mul_add_mod, Nat.mod_mod]

/-- A row is at a slot of a block when its place in the table has the block. -/
theorem rowAddr_eq_iff {table : List Nat} {r b slot : Nat} (hslot : slot < c.blockSize) :
    c.rowAddr table r = b * c.blockSize + slot ↔ table.getD (r / c.blockSize) 0 = b ∧ r % c.blockSize = slot := by
  constructor
  · intro heq
    have hdiv := congrArg (· / c.blockSize) heq
    have hmod := congrArg (· % c.blockSize) heq
    simp only [rowAddr_div, rowAddr_mod] at hdiv hmod
    rw [Nat.mul_comm, Nat.mul_add_div c.blockSize_pos, Nat.div_eq_of_lt hslot, Nat.add_zero] at hdiv
    rw [Nat.mul_comm, Nat.mul_add_mod, Nat.mod_eq_of_lt hslot] at hmod
    exact ⟨hdiv, hmod⟩
  · rintro ⟨rfl, rfl⟩
    rfl

theorem lt_succ_div_mul (r : Nat) : r < (r / c.blockSize + 1) * c.blockSize := by
  rw [Nat.succ_mul]
  exact Nat.lt_div_mul_add c.blockSize_pos

theorem getElem?_of_lt {table : List Nat} {r : Nat} (hr : r < table.length * c.blockSize) :
    table[r / c.blockSize]? = some (table.getD (r / c.blockSize) 0) := by
  have hlt : r / c.blockSize < table.length := (Nat.div_lt_iff_lt_mul c.blockSize_pos).mpr hr
  simp [List.getD_eq_getElem?_getD, hlt]

theorem rowAddr_lt {table : List Nat} {r : Nat} (hr : r < table.length * c.blockSize)
    (hblocks : ∀ b ∈ table, b < c.numBlocks) : c.rowAddr table r < c.numBlocks * c.blockSize := by
  have hmem := List.mem_of_getElem? (c.getElem?_of_lt hr)
  have hle := Nat.mul_le_mul_right c.blockSize (hblocks _ hmem)
  have hmod := Nat.mod_lt r c.blockSize_pos
  rw [Nat.succ_mul] at hle
  rw [rowAddr]
  omega

theorem rowAddr_append {table : List Nat} {r : Nat} (hr : r < table.length * c.blockSize)
    (new : List Nat) : c.rowAddr (table ++ new) r = c.rowAddr table r := by
  have hlt : r / c.blockSize < table.length := (Nat.div_lt_iff_lt_mul c.blockSize_pos).mpr hr
  rw [rowAddr, rowAddr, List.getD_eq_getElem?_getD, List.getD_eq_getElem?_getD,
    List.getElem?_append_left hlt]

theorem writeOne_of_forall_ne {store : Nat → Row K} {table : List Nat} {start n x : Nat}
    {src : Rows K} (h : ∀ k < n, c.rowAddr table (start + k) ≠ x) :
    c.writeOne store table start src n x = store x := by
  induction n with
  | zero => rfl
  | succ n ih =>
    rw [writeOne, List.range_succ, List.foldl_append, List.foldl_cons, List.foldl_nil,
      Function.update_of_ne (h n (Nat.lt_succ_self n)).symm]
    exact ih fun k hk => h k (Nat.lt_succ_of_lt hk)

theorem writeOne_self {store : Nat → Row K} {table : List Nat} {start n k : Nat} {src : Rows K}
    (hk : k < n) (hinj : ∀ k' < n, c.rowAddr table (start + k') = c.rowAddr table (start + k) → k' = k) :
    c.writeOne store table start src n (c.rowAddr table (start + k)) = src.getD k [] := by
  induction n with
  | zero => omega
  | succ n ih =>
    rw [writeOne, List.range_succ, List.foldl_append, List.foldl_cons, List.foldl_nil]
    by_cases hn : n = k
    · subst hn
      simp
    · rw [Function.update_of_ne fun he => hn (hinj n (Nat.lt_succ_self n) he.symm)]
      exact ih (by omega) fun k' hk' => hinj k' (Nat.lt_succ_of_lt hk')

theorem length_gatherOne (store : Nat → Row K) (table : List Nat) (rows : Nat) :
    (c.gatherOne store table rows).length = rows := by
  simp [gatherOne]

theorem gatherOne_getElem? {store : Nat → Row K} {table : List Nat} {rows r : Nat} (hr : r < rows) :
    (c.gatherOne store table rows)[r]? = some (store (c.rowAddr table r)) := by
  simp [gatherOne, hr]

end PoolSizes

namespace Pool

variable {K : Type} {c : PoolSizes} {n : Nat} {p p' : Pool K}

/-- The key row and the value row at a physical row of a layer. -/
def cell (p : Pool K) (layer x : Nat) : Row K × Row K := (p.keys layer x, p.values layer x)

/-- The cell of a row of a sequence. -/
def rowAt (c : PoolSizes) (p : Pool K) (layer id r : Nat) : Row K × Row K :=
  p.cell layer (c.rowAddr (p.seqs id).blockTable r)

/-- The cell of a slot of a block. -/
def blockCell (c : PoolSizes) (p : Pool K) (layer block slot : Nat) : Row K × Row K :=
  p.cell layer (block * c.blockSize + slot)

theorem rowAt_eq_blockCell (layer id r : Nat) :
    p.rowAt c layer id r =
      p.blockCell c layer ((p.seqs id).blockTable.getD (r / c.blockSize) 0) (r % c.blockSize) := rfl

theorem cell_congr (hkeys : p'.keys = p.keys) (hvalues : p'.values = p.values) (layer x : Nat) :
    p'.cell layer x = p.cell layer x := by
  rw [cell, cell, hkeys, hvalues]

theorem rowAt_congr (hkeys : p'.keys = p.keys) (hvalues : p'.values = p.values) {id : Nat}
    (htable : (p'.seqs id).blockTable = (p.seqs id).blockTable) (layer r : Nat) :
    p'.rowAt c layer id r = p.rowAt c layer id r := by
  rw [rowAt, rowAt, htable, cell_congr hkeys hvalues]

theorem gather_eq_iff {id layer rows : Nat} {expected : List (Row K × Row K)}
    (hlen : expected.length = rows) :
    (p.gatherKeys c id layer rows = expected.map Prod.fst ∧
      p.gatherValues c id layer rows = expected.map Prod.snd) ↔
      ∀ r < rows, expected[r]? = some (p.rowAt c layer id r) := by
  have hlist : ∀ (store : Nat → Row K) (f : Row K × Row K → Row K),
      c.gatherOne store (p.seqs id).blockTable rows = expected.map f ↔
        ∀ r < rows, (expected[r]?).map f = some (store (c.rowAddr (p.seqs id).blockTable r)) := by
    intro store f
    constructor
    · intro h r hr
      rw [← List.getElem?_map, ← h, c.gatherOne_getElem? hr]
    · intro h
      apply List.ext_getElem?
      intro r
      by_cases hr : r < rows
      · rw [c.gatherOne_getElem? hr, List.getElem?_map, h r hr]
      · rw [List.getElem?_eq_none (by rw [c.length_gatherOne]; omega),
          List.getElem?_eq_none (by rw [List.length_map]; omega)]
  rw [gatherKeys, gatherValues, hlist, hlist]
  constructor
  · intro h r hr
    have hr' : r < expected.length := by omega
    have h1 := h.1 r hr
    have h2 := h.2 r hr
    rw [List.getElem?_eq_getElem hr', Option.map_some, Option.some.injEq] at h1 h2
    rw [List.getElem?_eq_getElem hr', rowAt, cell, ← h1, ← h2]
  · intro h
    exact ⟨fun r hr => by rw [h r hr]; rfl, fun r hr => by rw [h r hr]; rfl⟩

def Holds (c : PoolSizes) (p : Pool K) (layer id : Nat) (rows : List (Row K × Row K)) : Prop :=
  ∀ r < rows.length, rows[r]? = some (p.rowAt c layer id r)

theorem Holds.gather {layer id m : Nat} {rows : List (Row K × Row K)} (h : p.Holds c layer id rows)
    (hm : m = rows.length) : p.gatherKeys c id layer m = rows.map Prod.fst ∧
      p.gatherValues c id layer m = rows.map Prod.snd :=
  (gather_eq_iff hm.symm).mpr fun r hr => h r (hm ▸ hr)

theorem Holds.congr {layer id : Nat} {rows : List (Row K × Row K)} (h : p.Holds c layer id rows)
    (heq : ∀ r < rows.length, p'.rowAt c layer id r = p.rowAt c layer id r) :
    p'.Holds c layer id rows := fun r hr => by rw [h r hr, heq r hr]

/-- The invariant speaks of the allocator, the tables and the entries only. -/
theorem Wf.congr (h : p.Wf c n) (halloc : p'.alloc = p.alloc) (hseqs : p'.seqs = p.seqs)
    (hprefixes : p'.prefixes = p.prefixes) : p'.Wf c n := by
  have hrefs : p'.refs n = p.refs n := refs_congr (fun i => by rw [hseqs]) (by rw [hprefixes])
  refine ⟨?_, ?_, ?_, ?_, ?_⟩
  · rw [Tracked, hrefs, halloc]
    exact h.tracked
  · rw [hseqs]
    exact h.fresh
  · rw [hseqs]
    exact h.length_le
  · rw [hseqs, hrefs]
    exact h.unshared
  · rw [hprefixes]
    exact h.entries

theorem Wf.write (h : p.Wf c n) (id layer start : Nat) (k v : Rows K) (len : Nat) :
    (p.write c id layer start k v len).Wf c n :=
  h.congr rfl rfl rfl

theorem Wf.table_lt (h : p.Wf c n) {id b : Nat} (hid : id < n) (hb : b ∈ (p.seqs id).blockTable) :
    b < c.numBlocks :=
  h.tracked.lt b (mem_refs_of_mem_table hid hb)

/-- The cell of a row past the committed rows of its sequence is the cell of no other row. -/
theorem Wf.rowAddr_owned (h : p.Wf c n) {id r : Nat} (hid : id < n) (hle : (p.seqs id).length ≤ r)
    (hr : r < (p.seqs id).blockTable.length * c.blockSize) {id' r' : Nat} (hid' : id' < n)
    (hr' : r' < (p.seqs id').blockTable.length * c.blockSize)
    (heq : c.rowAddr (p.seqs id').blockTable r' = c.rowAddr (p.seqs id).blockTable r) :
    id' = id ∧ r' = r := by
  have hdiv := congrArg (· / c.blockSize) heq
  have hmod := congrArg (· % c.blockSize) heq
  simp only [c.rowAddr_div, c.rowAddr_mod] at hdiv hmod
  have hlt : (p.seqs id).length < (r / c.blockSize + 1) * c.blockSize :=
    hle.trans_lt (c.lt_succ_div_mul r)
  obtain ⟨hii, hjj⟩ := (h.owned hid (c.getElem?_of_lt hr) hlt).2 id' hid' _
    (hdiv ▸ c.getElem?_of_lt hr')
  refine ⟨hii, ?_⟩
  rw [← Nat.div_add_mod r' c.blockSize, ← Nat.div_add_mod r c.blockSize, hjj, hmod]

/-- A row of a sequence behind the committed ones is no cell of a cached block. -/
theorem Wf.rowAddr_not_cached (h : p.Wf c n) {id r : Nat} (hid : id < n)
    (hle : (p.seqs id).length ≤ r) (hr : r < (p.seqs id).blockTable.length * c.blockSize)
    {e : Hash × PrefixEntry} (he : e ∈ p.prefixes) {slot : Nat} (hslot : slot < c.blockSize) :
    c.rowAddr (p.seqs id).blockTable r ≠ e.2.block * c.blockSize + slot := by
  intro heq
  have hdiv := congrArg (· / c.blockSize) heq
  simp only [c.rowAddr_div] at hdiv
  rw [Nat.mul_comm, Nat.mul_add_div c.blockSize_pos, Nat.div_eq_of_lt hslot, Nat.add_zero] at hdiv
  have hlt : (p.seqs id).length < (r / c.blockSize + 1) * c.blockSize :=
    hle.trans_lt (c.lt_succ_div_mul r)
  exact (h.owned hid (c.getElem?_of_lt hr) hlt).1 (hdiv ▸ mem_cacheRefs he)

section Write

variable {id layer start len : Nat} {k v : Rows K}

theorem write_cell_of_layer_ne {layer' : Nat} (hne : layer' ≠ layer) (x : Nat) :
    (p.write c id layer start k v len).cell layer' x = p.cell layer' x := by
  simp [cell, Pool.write, hne]

theorem write_cell_of_forall_ne {x : Nat}
    (hne : ∀ j < len, c.rowAddr (p.seqs id).blockTable (start + j) ≠ x) (layer' : Nat) :
    (p.write c id layer start k v len).cell layer' x = p.cell layer' x := by
  by_cases hl : layer' = layer
  · subst hl
    simp [cell, Pool.write, c.writeOne_of_forall_ne hne]
  · exact write_cell_of_layer_ne hl x

variable (h : p.Wf c n) (hid : id < n) (hstart : (p.seqs id).length ≤ start)
  (hend : start + len ≤ (p.seqs id).blockTable.length * c.blockSize)

include h hid hstart hend

theorem write_rowAt_self {j : Nat} (hj : j < len) :
    (p.write c id layer start k v len).rowAt c layer id (start + j) = (k.getD j [], v.getD j []) := by
  have hinj : ∀ j' < len, c.rowAddr (p.seqs id).blockTable (start + j') =
      c.rowAddr (p.seqs id).blockTable (start + j) → j' = j := by
    intro j' hj' heq
    have := (h.rowAddr_owned hid (by omega) (by omega) hid (by omega) heq).2
    omega
  simp [rowAt, cell, Pool.write, c.writeOne_self hj hinj]

theorem write_rowAt_of_ne {id' r : Nat} (hid' : id' < n)
    (hr : r < (p.seqs id').blockTable.length * c.blockSize)
    (hne : id' ≠ id ∨ r < start ∨ start + len ≤ r) (layer' : Nat) :
    (p.write c id layer start k v len).rowAt c layer' id' r = p.rowAt c layer' id' r := by
  refine write_cell_of_forall_ne (fun j hj heq => ?_) layer'
  have howned := h.rowAddr_owned hid (by omega) (by omega) hid' hr heq.symm
  omega

theorem Holds.write {old new : List (Row K × Row K)} (hold : p.Holds c layer id old)
    (hstart' : start = old.length) (hlen : len = new.length)
    (hnew : ∀ j < len, new[j]? = some (k.getD j [], v.getD j [])) :
    (p.write c id layer start k v len).Holds c layer id (old ++ new) := by
  intro r hr
  rw [List.length_append] at hr
  by_cases hrold : r < old.length
  · rw [List.getElem?_append_left hrold, hold r hrold,
      write_rowAt_of_ne h hid hstart hend hid (by omega) (.inr (.inl (by omega))) layer]
  · obtain ⟨j, rfl⟩ : ∃ j, r = start + j := ⟨r - start, by omega⟩
    have hj : j < len := by omega
    rw [write_rowAt_self h hid hstart hend hj, ← hnew j hj, List.getElem?_append_right (by omega), hstart',
      Nat.add_sub_cancel_left]

/-- Every cached block stays. -/
theorem write_blockCell {e : Hash × PrefixEntry} (he : e ∈ p.prefixes) {slot : Nat}
    (hslot : slot < c.blockSize) (layer' : Nat) :
    (p.write c id layer start k v len).blockCell c layer' e.2.block slot =
      p.blockCell c layer' e.2.block slot :=
  write_cell_of_forall_ne
    (fun _ _ => h.rowAddr_not_cached hid (by omega) (by omega) he hslot) layer'

end Write

/-! ### Committed rows under the other operations -/

/-- Committed rows and cached blocks hold what they held. -/
structure Kept (c : PoolSizes) (p p' : Pool K) : Prop where
  length_le : ∀ i, (p.seqs i).length ≤ (p'.seqs i).length
  committed : ∀ i layer r, r < (p.seqs i).length → p'.rowAt c layer i r = p.rowAt c layer i r
  cached : ∀ e ∈ p'.prefixes, e ∈ p.prefixes ∧ ∀ layer slot, slot < c.blockSize →
    p'.blockCell c layer e.2.block slot = p.blockCell c layer e.2.block slot

theorem Kept.refl (c : PoolSizes) (p : Pool K) : Kept c p p :=
  ⟨fun _ => le_rfl, fun _ _ _ _ => rfl, fun _ he => ⟨he, fun _ _ _ => rfl⟩⟩

theorem Kept.trans {p q r : Pool K} (h : Kept c p q) (h' : Kept c q r) : Kept c p r where
  length_le i := (h.length_le i).trans (h'.length_le i)
  committed i layer x hx :=
    (h'.committed i layer x (hx.trans_le (h.length_le i))).trans (h.committed i layer x hx)
  cached e he := by
    obtain ⟨he', hcell'⟩ := h'.cached e he
    obtain ⟨he'', hcell⟩ := h.cached e he'
    exact ⟨he'', fun layer slot hs => (hcell' layer slot hs).trans (hcell layer slot hs)⟩

theorem Wf.lt_of_lt_length (h : p.Wf c n) {id r : Nat} (hr : r < (p.seqs id).length) :
    r < (p.seqs id).blockTable.length * c.blockSize :=
  hr.trans_le (h.length_le id)

theorem Grown.length {id : Nat} {new : List Nat} (hg : Grown id new p p') (i : Nat) :
    (p'.seqs i).length = (p.seqs i).length := by
  by_cases hi : i = id
  · subst hi
    rw [hg.self]
  · rw [hg.others i hi]

theorem Grown.table {id : Nat} {new : List Nat} (hg : Grown id new p p') (i : Nat) :
    ∃ more, (p'.seqs i).blockTable = (p.seqs i).blockTable ++ more := by
  by_cases hi : i = id
  · subst hi
    exact ⟨new, by rw [hg.self]⟩
  · exact ⟨[], by rw [hg.others i hi, List.append_nil]⟩

theorem Grown.rowAt {id : Nat} {new : List Nat} (hg : Grown id new p p') {i r : Nat}
    (hr : r < (p.seqs i).blockTable.length * c.blockSize) (layer : Nat) :
    p'.rowAt c layer i r = p.rowAt c layer i r := by
  obtain ⟨more, hmore⟩ := hg.table i
  rw [Pool.rowAt, Pool.rowAt, hmore, c.rowAddr_append hr, cell_congr hg.keys hg.values]

theorem Freed.rowAt {id : Nat} (hf : Freed id p p') {i : Nat} (hi : i ≠ id) (layer r : Nat) :
    p'.rowAt c layer i r = p.rowAt c layer i r :=
  rowAt_congr hf.keys hf.values (by rw [hf.others i hi]) layer r

theorem Acquired.rowAt {id : Nat} {blocks : List Nat} (ha : Acquired id blocks p p') {i : Nat}
    (hi : i ≠ id) (layer r : Nat) : p'.rowAt c layer i r = p.rowAt c layer i r :=
  rowAt_congr ha.keys ha.values (by rw [ha.others i hi]) layer r

theorem Registered.rowAt {id : Nat} {tokens : List Int} {added : List (Hash × PrefixEntry)}
    (hr : Registered c id tokens added p p') (i layer r : Nat) :
    p'.rowAt c layer i r = p.rowAt c layer i r :=
  rowAt_congr hr.keys hr.values (by rw [hr.seqs]) layer r

theorem commit_length (id len i : Nat) :
    ((p.commit id len).seqs i).length = (p.seqs i).length + if i = id then len else 0 := by
  by_cases hi : i = id
  · subst hi
    simp [Pool.commit]
  · simp [Pool.commit, setSeq_seqs_of_ne _ _ hi, hi]

theorem commit_table (id len i : Nat) :
    ((p.commit id len).seqs i).blockTable = (p.seqs i).blockTable := by
  by_cases hi : i = id
  · subst hi
    simp [Pool.commit]
  · simp [Pool.commit, setSeq_seqs_of_ne _ _ hi]

theorem commit_rowAt (id len i layer r : Nat) :
    (p.commit id len).rowAt c layer i r = p.rowAt c layer i r := by
  have hkeys : (p.commit id len).keys = p.keys := rfl
  have hvalues : (p.commit id len).values = p.values := rfl
  exact rowAt_congr hkeys hvalues (commit_table id len i) layer r

end Pool

/-- A small pool: one layer, four blocks of two rows. -/
def tinyPool : PoolConfig := ⟨⟨1, 1, 2, 4, Nat.one_pos, Nat.one_pos, Nat.two_pos⟩, by decide⟩

end InferenceEngine
