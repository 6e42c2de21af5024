import InferenceEngine.Model.RowKernels

/-!
# Rotary positions

The heads of all rows are rotated pair by pair. No two pairs share a cell, so the order does not matter, and every
column of every head is the rotation of its pair.
-/

namespace InferenceEngine

namespace Nn

variable {K : Type} [Field K] [LinearOrder K] (F : MathFunctions K)

def ropeCell (nHeads headDim idx : Nat) : Nat :=
  idx / (nHeads * (headDim / 2)) * nHeads * headDim + idx % (nHeads * (headDim / 2)) / (headDim / 2) * headDim +
    idx % (nHeads * (headDim / 2)) % (headDim / 2)

/-- What a thread of the rotation writes. -/
def RopeWrites (rows nHeads headDim idx c : Nat) : Prop :=
  idx < rows * (nHeads * (headDim / 2)) ∧
    (c = ropeCell nHeads headDim idx ∨ c = ropeCell nHeads headDim idx + headDim / 2)

/-- Column `d` of a head after the rotation by the angles of its pairs. -/
def ropeValue (headDim : Nat) (angle : Nat → K) (head : Nat → K) (d : Nat) : K :=
  let half := headDim / 2
  if d < half then head d * F.cos (angle d) - head (d + half) * F.sin (angle d)
  else if d < half + half then
    head d * F.cos (angle (d - half)) + head (d - half) * F.sin (angle (d - half))
  else head d

theorem RopeWrites.head {rows nHeads headDim idx c : Nat} (h : RopeWrites rows nHeads headDim idx c) :
    ∃ t hh i d, hh < nHeads ∧ i < headDim / 2 ∧ (d = i ∨ d = i + headDim / 2) ∧ d < headDim ∧
      idx = t * (nHeads * (headDim / 2)) + (hh * (headDim / 2) + i) ∧ c = (t * nHeads + hh) * headDim + d := by
  obtain ⟨hidx, hc⟩ := h
  have hper : 0 < nHeads * (headDim / 2) := Nat.pos_of_mul_pos_left (Nat.zero_lt_of_lt hidx)
  have hhalf : 0 < headDim / 2 := Nat.pos_of_mul_pos_left hper
  have hrem := Nat.mod_lt idx hper
  have hi := Nat.mod_lt (idx % (nHeads * (headDim / 2))) hhalf
  have hhh : idx % (nHeads * (headDim / 2)) / (headDim / 2) < nHeads := (Nat.div_lt_iff_lt_mul hhalf).mpr hrem
  have hsplit : idx = idx / (nHeads * (headDim / 2)) * (nHeads * (headDim / 2)) +
      (idx % (nHeads * (headDim / 2)) / (headDim / 2) * (headDim / 2) +
        idx % (nHeads * (headDim / 2)) % (headDim / 2)) := by
    rw [Nat.div_add_mod', Nat.div_add_mod']
  have hcell : ropeCell nHeads headDim idx = (idx / (nHeads * (headDim / 2)) * nHeads +
      idx % (nHeads * (headDim / 2)) / (headDim / 2)) * headDim + idx % (nHeads * (headDim / 2)) % (headDim / 2) := by
    rw [ropeCell, Nat.add_mul]
  rcases hc with rfl | rfl
  · exact ⟨_, _, _, _, hhh, hi, Or.inl rfl, by omega, hsplit, hcell⟩
  · refine ⟨_, _, _, _, hhh, hi, Or.inr rfl, by omega, hsplit, ?_⟩
    rw [hcell, Nat.add_assoc]

def ropePair (rows nHeads headDim : Nat) (theta : K) (pos : Nat → Nat) (idx : Nat) (x : Nat → K) : Nat → K :=
  if rows * (nHeads * (headDim / 2)) ≤ idx then x
  else
    rotate F (ropeAngle F headDim theta (pos (idx / (nHeads * (headDim / 2))))
      (idx % (nHeads * (headDim / 2)) % (headDim / 2))) (ropeCell nHeads headDim idx)
      (ropeCell nHeads headDim idx + headDim / 2) x

theorem independent_ropePair (rows nHeads headDim : Nat) (theta : K) (pos : Nat → Nat) :
    Kernel.Independent (ropePair F rows nHeads headDim theta pos) (RopeWrites rows nHeads headDim) := by
  apply Kernel.independent_of_local
  · intro idx x c hc
    rw [ropePair]
    split
    · rfl
    · next hidx =>
      have hne := not_or.mp fun hor => hc ⟨not_le.mp hidx, hor⟩
      exact (Function.update_of_ne hne.2 _ _).trans (Function.update_of_ne hne.1 _ _)
  · intro idx idx' c hc hc'
    obtain ⟨t, hh, i, d, hhh, hi, hd, hlt, rfl, hcell⟩ := hc.head
    obtain ⟨t', hh', i', d', hhh', hi', hd', hlt', rfl, hcell'⟩ := hc'.head
    obtain ⟨hrow, rfl⟩ := Loop.row_inj hlt hlt' (hcell.symm.trans hcell')
    obtain ⟨rfl, rfl⟩ := Loop.row_inj hhh hhh' hrow
    have heq : i = i' := by omega
    rw [heq]
  · intro idx x x' hx c hc
    have hfirst := hx _ ⟨hc.1, Or.inl rfl⟩
    have hsecond := hx _ ⟨hc.1, Or.inr rfl⟩
    rw [ropePair, ropePair, if_neg (not_le.mpr hc.1), if_neg (not_le.mpr hc.1)]
    unfold rotate
    simp only [hfirst, hsecond]
    by_cases h2 : c = ropeCell nHeads headDim idx + headDim / 2
    · rw [h2, Function.update_self, Function.update_self]
    · have h1 := hc.2.resolve_right h2
      rw [Function.update_of_ne h2, Function.update_of_ne h2, h1, Function.update_self, Function.update_self]

theorem ropePair_index {rows nHeads headDim t hh i : Nat} (ht : t < rows) (hhh : hh < nHeads) (hi : i < headDim / 2)
    (theta : K) (pos : Nat → Nat) (x : Nat → K) :
    ropePair F rows nHeads headDim theta pos (t * (nHeads * (headDim / 2)) + (hh * (headDim / 2) + i)) x =
      rotate F (ropeAngle F headDim theta (pos t) i) ((t * nHeads + hh) * headDim + i)
        ((t * nHeads + hh) * headDim + i + headDim / 2) x := by
  have hrem : hh * (headDim / 2) + i < nHeads * (headDim / 2) := Loop.lt_work hhh hi
  rw [ropePair, if_neg (not_le.mpr (Loop.lt_work ht hrem)), ropeCell]
  simp only [Loop.index_div hrem, Loop.index_mod hrem, Loop.index_div hi, Loop.index_mod hi]
  rw [Nat.add_mul (t * nHeads)]

/-- Whatever the order, every column of every head is rotated once. -/
theorem launch_ropePair {rows nHeads headDim t hh d : Nat} (ht : t < rows) (hhh : hh < nHeads) (hd : d < headDim)
    (theta : K) (pos : Nat → Nat) {order : List Nat} (hnodup : order.Nodup)
    (hcover : ∀ idx < rows * (nHeads * (headDim / 2)), idx ∈ order) (x : Nat → K) :
    Kernel.launch (ropePair F rows nHeads headDim theta pos) order x ((t * nHeads + hh) * headDim + d) =
      ropeValue F headDim (ropeAngle F headDim theta (pos t)) (fun d => x ((t * nHeads + hh) * headDim + d)) d := by
  have hind := independent_ropePair F rows nHeads headDim theta pos
  have hidx : ∀ {i}, i < headDim / 2 →
      t * (nHeads * (headDim / 2)) + (hh * (headDim / 2) + i) < rows * (nHeads * (headDim / 2)) :=
    fun hi => Loop.lt_work ht (Loop.lt_work hhh hi)
  have hcell : ∀ {i}, i < headDim / 2 →
      ropeCell nHeads headDim (t * (nHeads * (headDim / 2)) + (hh * (headDim / 2) + i)) =
        (t * nHeads + hh) * headDim + i := by
    intro i hi
    have hrem : hh * (headDim / 2) + i < nHeads * (headDim / 2) := Loop.lt_work hhh hi
    rw [ropeCell, Loop.index_div hrem, Loop.index_mod hrem, Loop.index_div hi, Loop.index_mod hi, Nat.add_mul]
  simp only [ropeValue]
  split
  · next hi =>
    rw [hind.launch_of_writes hnodup (hcover _ (hidx hi)) ⟨hidx hi, Or.inl (hcell hi).symm⟩,
      ropePair_index F ht hhh hi]
    unfold rotate
    rw [Function.update_of_ne (by omega), Function.update_self, Nat.add_assoc]
  · next hnot =>
    split
    · next hlt =>
      have hi : d - headDim / 2 < headDim / 2 := by omega
      have hd' : (t * nHeads + hh) * headDim + (d - headDim / 2) + headDim / 2 = (t * nHeads + hh) * headDim + d := by
        omega
      have hright : (t * nHeads + hh) * headDim + d = ropeCell nHeads headDim
          (t * (nHeads * (headDim / 2)) + (hh * (headDim / 2) + (d - headDim / 2))) + headDim / 2 := by
        rw [hcell hi, hd']
      rw [hind.launch_of_writes hnodup (hcover _ (hidx hi)) ⟨hidx hi, Or.inr hright⟩, ropePair_index F ht hhh hi]
      unfold rotate
      rw [hd', Function.update_self]
    · next hge =>
      -- an odd column behind the pairs stays
      apply hind.launch_of_not_writes
      intro idx _ hc
      obtain ⟨t', hh', i, d', _, hi, hd', hlt, _, heq⟩ := hc.head
      have := (Loop.row_inj hd hlt heq).2
      omega

theorem ropeRow_eq (nHeads headDim : Nat) (theta : K) (position : Nat) (row : Row K) {hh d : Nat} (hhh : hh < nHeads)
    (hd : d < headDim) :
    (ropeRow F nHeads headDim theta position row).getD (hh * headDim + d) 0 =
      ropeValue F headDim (ropeAngle F headDim theta position) (fun d => row.getD (hh * headDim + d) 0) d := by
  have hloops : (List.range nHeads).foldl (fun cells hh => (List.range (headDim / 2)).foldl (fun cells i =>
      rotate F (ropeAngle F headDim theta position i) (hh * headDim + i) (hh * headDim + i + headDim / 2) cells) cells)
      (fun e => row.getD e 0) =
      Kernel.launch (ropePair F 1 nHeads headDim theta fun _ => position) (List.range (nHeads * (headDim / 2)))
        fun e => row.getD e 0 := by
    rw [Loop.foldl_range_mul]
    apply List.foldl_ext
    intro cells k hk
    have hk : k < nHeads * (headDim / 2) := List.mem_range.mp hk
    have hhalf : 0 < headDim / 2 := Nat.pos_of_mul_pos_left (Nat.zero_lt_of_lt hk)
    have hpair := ropePair_index F (t := 0) Nat.one_pos ((Nat.div_lt_iff_lt_mul hhalf).mpr hk) (Nat.mod_lt k hhalf)
      theta (fun _ => position) cells
    rw [Nat.div_add_mod', Nat.zero_mul, Nat.zero_mul, Nat.zero_add, Nat.zero_add] at hpair
    exact hpair.symm
  have hlaunch := launch_ropePair F (t := 0) Nat.one_pos hhh hd theta (fun _ => position) List.nodup_range
    (fun idx hidx => List.mem_range.mpr (by rwa [Nat.one_mul] at hidx)) fun e => row.getD e 0
  rw [Nat.zero_mul, Nat.zero_add] at hlaunch
  rw [ropeRow]
  simp only [hloops]
  rw [List.getD_eq_getElem _ _ (by simpa using Loop.lt_work hhh hd), List.getElem_map, List.getElem_range]
  exact hlaunch

/-- **Rows after a rotation**: every row is rotated as the loops of the host rotate it. -/
theorem readRows_ropePair (nHeads headDim : Nat) (theta : K) (positions : List Nat) {order : List Nat}
    (hnodup : order.Nodup) (hcover : ∀ idx < positions.length * (nHeads * (headDim / 2)), idx ∈ order)
    (x : Nat → K) :
    readRows (nHeads * headDim) positions.length
        (Kernel.launch (ropePair F positions.length nHeads headDim theta fun t => positions.getD t 0) order x) =
      List.zipWith (fun p row => ropeRow F nHeads headDim theta p row) positions
        (readRows (nHeads * headDim) positions.length x) := by
  apply List.ext_getElem
  · rw [length_readRows, List.length_zipWith, length_readRows, Nat.min_self]
  · intro t ht _
    rw [length_readRows] at ht
    simp only [readRows, List.getElem_zipWith, List.getElem_map, List.getElem_range]
    apply readRow_of_getD
    · simp [ropeRow]
    · intro e he
      have hdim : 0 < headDim := Nat.pos_of_mul_pos_left (Nat.zero_lt_of_lt he)
      have hhh : e / headDim < nHeads := (Nat.div_lt_iff_lt_mul hdim).mpr he
      have hd : e % headDim < headDim := Nat.mod_lt e hdim
      have hcell : ∀ {d}, (t * nHeads + e / headDim) * headDim + d =
          t * (nHeads * headDim) + (e / headDim * headDim + d) := by
        intro d
        rw [Nat.add_mul, Nat.mul_assoc, Nat.add_assoc]
      have hpairs := launch_ropePair F ht hhh hd theta (fun t => positions.getD t 0) hnodup hcover x
      have hrow := ropeRow_eq F nHeads headDim theta positions[t] (readRow (nHeads * headDim) x t) hhh hd
      rw [hcell, Nat.div_add_mod'] at hpairs
      rw [Nat.div_add_mod'] at hrow
      rw [hpairs, hrow, List.getD_eq_getElem _ _ ht]
      -- both heads hold the same columns
      have hcolumn : ∀ d < headDim, x ((t * nHeads + e / headDim) * headDim + d) =
          (readRow (nHeads * headDim) x t).getD (e / headDim * headDim + d) 0 := by
        intro d hd
        rw [hcell, getD_readRow (Loop.lt_work hhh hd)]
      simp only [ropeValue]
      split
      · next hi => rw [hcolumn _ hd, hcolumn _ (by omega)]
      · split
        · next hi => rw [hcolumn _ hd, hcolumn _ (by omega)]
        · exact hcolumn _ hd

end Nn

end InferenceEngine
