import Mathlib.Data.List.Sort

/-!
# Ranking by a key

A list in the order of a key that has no ties. The order is then a matter of the elements alone, and the
ranking without its first element is the ranking of the rest. Among values with ties, the first of the
largest is where a search from the left that moves to larger values only ends up.
-/

namespace Ranking

variable {α β : Type} [LinearOrder β]

/-- The list in the order of `key`. -/
def ranking (key : α → β) (l : List α) : List α := l.insertionSort fun a b => key a ≤ key b

variable {key : α → β} {l l' : List α} {a : α}

theorem ranking_perm (key : α → β) (l : List α) : (ranking key l).Perm l := List.perm_insertionSort _ _

theorem mem_ranking : a ∈ ranking key l ↔ a ∈ l := (ranking_perm key l).mem_iff

theorem length_ranking (key : α → β) (l : List α) : (ranking key l).length = l.length :=
  (ranking_perm key l).length_eq

theorem pairwise_ranking (h : (l.map key).Nodup) : (ranking key l).Pairwise fun a b => key a < key b := by
  have hle : (ranking key l).Pairwise fun a b => key a ≤ key b := by
    have hsorted := List.pairwise_insertionSort (fun a b => key a ≤ key b) l
    exact hsorted
  have hne : (ranking key l).Pairwise fun a b => key a ≠ key b := by
    have hnodup := ((ranking_perm key l).map key).nodup_iff.mpr h
    exact List.pairwise_map.mp hnodup
  exact hle.imp₂ (fun a b hab hne => lt_of_le_of_ne hab hne) hne

/-- Whatever is in the order of the key is the ranking of its elements. -/
theorem ranking_eq_of_pairwise (h : l'.Pairwise fun a b => key a < key b) (hperm : l.Perm l') :
    ranking key l = l' := by
  have hnodup : (l.map key).Nodup := (hperm.map key).nodup_iff.mpr (List.pairwise_map.mpr (h.imp ne_of_lt))
  have hasymm : ∀ a b, a ∈ ranking key l → b ∈ l' → key a < key b → key b < key a → a = b :=
    fun a b _ _ hab hba => absurd hab hba.asymm
  exact List.Perm.eq_of_pairwise hasymm (pairwise_ranking hnodup) h ((ranking_perm key l).trans hperm)

theorem ranking_congr (h : (l.map key).Nodup) (hperm : l.Perm l') : ranking key l = ranking key l' := by
  apply ranking_eq_of_pairwise
  · exact pairwise_ranking ((hperm.map key).nodup_iff.mp h)
  · exact hperm.trans (ranking_perm key l').symm

/-- The least element leads, and the others follow in their ranking. -/
theorem ranking_of_least (h : (l.map key).Nodup) (ha : a ∈ l) (hleast : ∀ b ∈ l, key a ≤ key b) [DecidableEq α] :
    ranking key l = a :: ranking key (l.erase a) := by
  have hperm := List.perm_cons_erase ha
  have hnodup := (hperm.map key).nodup_iff.mp h
  rw [List.map_cons, List.nodup_cons] at hnodup
  apply ranking_eq_of_pairwise
  · rw [List.pairwise_cons]
    refine ⟨fun b hb => lt_of_le_of_ne ?_ fun heq => ?_, pairwise_ranking hnodup.2⟩
    · exact hleast b (List.mem_of_mem_erase (mem_ranking.mp hb))
    · exact hnodup.1 (heq ▸ List.mem_map_of_mem (mem_ranking.mp hb))
  · exact hperm.trans ((ranking_perm key _).symm.cons a)

/-- Nothing outside the first `k` of a ranking comes before one of them. -/
theorem lt_of_mem_take (h : (l.map key).Nodup) {k : Nat} {b : α} (ha : a ∈ (ranking key l).take k)
    (hb : b ∈ l) (hnot : b ∉ (ranking key l).take k) : key a < key b := by
  have hsorted := pairwise_ranking h
  rw [← List.take_append_drop k (ranking key l), List.pairwise_append] at hsorted
  apply hsorted.2.2 a ha
  have hmem : b ∈ ranking key l := mem_ranking.mpr hb
  rw [← List.take_append_drop k (ranking key l)] at hmem
  exact (List.mem_append.mp hmem).resolve_left hnot

/-! ### The first of the largest -/

/-- The smallest index among the largest of the first `n` values. -/
structure FirstMax (f : Nat → β) (n i : Nat) : Prop where
  lt : i < n
  le : ∀ j < n, f j ≤ f i
  first : ∀ j < i, f j < f i

variable {f g : Nat → β} {n i j : Nat}

theorem FirstMax.unique (hi : FirstMax f n i) (hj : FirstMax f n j) : i = j := by
  obtain h | h | h := lt_trichotomy i j
  · exact absurd (hj.first i h) (not_lt.mpr (hi.le j hj.lt))
  · exact h
  · exact absurd (hi.first j h) (not_lt.mpr (hj.le i hi.lt))

theorem firstMax_one (f : Nat → β) : FirstMax f 1 0 where
  lt := Nat.one_pos
  le j hj := by rw [Nat.lt_one_iff.mp hj]
  first j hj := absurd hj (Nat.not_lt_zero j)

theorem FirstMax.step (h : FirstMax f n i) : FirstMax f (n + 1) (if f i < f n then n else i) := by
  split
  · rename_i hlt
    apply FirstMax.mk (Nat.lt_succ_self n)
    · intro j hj
      obtain hj | rfl := Nat.lt_succ_iff_lt_or_eq.mp hj
      · exact (h.le j hj).trans hlt.le
      · exact le_rfl
    · exact fun j hj => (h.le j hj).trans_lt hlt
  · rename_i hlt
    apply FirstMax.mk (Nat.lt_succ_of_lt h.lt) ?_ h.first
    intro j hj
    obtain hj | rfl := Nat.lt_succ_iff_lt_or_eq.mp hj
    · exact h.le j hj
    · exact not_lt.mp hlt

/-- The search from the left. -/
theorem FirstMax.search (h : FirstMax f n i) (count : Nat) :
    FirstMax f (n + count) ((List.range' n count).foldl (fun best j => if f best < f j then j else best) i) := by
  induction count generalizing n i with
  | zero => exact h
  | succ count ih =>
    rw [List.range'_succ, List.foldl_cons, Nat.add_comm count, ← Nat.add_assoc]
    exact ih h.step

theorem FirstMax.congr (h : FirstMax f n i) (hfg : ∀ j < n, f j = g j) : FirstMax g n i where
  lt := h.lt
  le j hj := by
    rw [← hfg j hj, ← hfg i h.lt]
    exact h.le j hj
  first j hj := by
    rw [← hfg j (hj.trans h.lt), ← hfg i h.lt]
    exact h.first j hj

end Ranking
