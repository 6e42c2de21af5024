import InferenceEngine.Basic
import InferenceEngine.Library.Loop
import Mathlib.Data.List.GetD

/-!
# Rows of a buffer

A buffer is read as rows of a fixed width. A range that is stored over whole rows replaces them, and a pointer to
rows that were read from a buffer points at the same numbers.
-/

namespace InferenceEngine

variable {K : Type}

@[simp] theorem length_readRow (width : Nat) (buffer : Nat → K) (r : Nat) :
    (readRow width buffer r).length = width := by
  rw [readRow, List.length_map, List.length_range]

@[simp] theorem length_readRows (width n : Nat) (buffer : Nat → K) : (readRows width n buffer).length = n := by
  rw [readRows, List.length_map, List.length_range]

theorem getD_readRow [Zero K] {width e : Nat} (he : e < width) (buffer : Nat → K) (r : Nat) :
    (readRow width buffer r).getD e 0 = buffer (r * width + e) := by
  rw [List.getD_eq_getElem _ _ (by simpa using he)]
  simp [readRow]

theorem readRow_of_getD [Zero K] {width a : Nat} {buffer : Nat → K} {row : Row K} (hlen : row.length = width)
    (h : ∀ e < width, buffer (a * width + e) = row.getD e 0) : readRow width buffer a = row := by
  apply List.ext_getElem
  · rw [length_readRow, hlen]
  · intro e he hrow
    rw [length_readRow] at he
    simp only [readRow, List.getElem_map, List.getElem_range]
    rw [h e he]
    exact List.getD_eq_getElem _ _ hrow

theorem readRows_map {width width' n : Nat} {buffer buffer' : Nat → K} {f : Row K → Row K}
    (h : ∀ r < n, readRow width' buffer' r = f (readRow width buffer r)) :
    readRows width' n buffer' = (readRows width n buffer).map f := by
  rw [readRows, readRows, List.map_map]
  apply List.map_congr_left
  intro r hr
  exact h r (List.mem_range.mp hr)

theorem readRows_zipWith {width n : Nat} {x y z : Nat → K} {f : K → K → K}
    (h : ∀ r < n, ∀ e < width, z (r * width + e) = f (x (r * width + e)) (y (r * width + e))) :
    readRows width n z = List.zipWith (List.zipWith f) (readRows width n x) (readRows width n y) := by
  rw [readRows, readRows, readRows, List.zipWith_map, List.zipWith_self]
  apply List.map_congr_left
  intro r hr
  rw [readRow, readRow, readRow, List.zipWith_map, List.zipWith_self]
  apply List.map_congr_left
  intro e he
  exact h r (List.mem_range.mp hr) e (List.mem_range.mp he)

theorem getD_readRows {width n r : Nat} (hr : r < n) (buffer : Nat → K) :
    (readRows width n buffer).getD r [] = readRow width buffer r := by
  rw [List.getD_eq_getElem _ _ (by simpa using hr)]
  simp [readRows]

theorem take_readRows {width n m : Nat} (hm : m ≤ n) (buffer : Nat → K) :
    (readRows width n buffer).take m = readRows width m buffer := by
  rw [readRows, ← List.map_take, List.take_range, Nat.min_eq_left hm]
  rfl

theorem readRow_congr {width a : Nat} {buffer buffer' : Nat → K}
    (h : ∀ e < width, buffer (a * width + e) = buffer' (a * width + e)) :
    readRow width buffer a = readRow width buffer' a := by
  apply List.map_congr_left
  intro e he
  exact h e (List.mem_range.mp he)

theorem pointerTo_row [Zero K] {rows : Rows K} {width : Nat}
    (hwidth : ∀ row ∈ rows, row.length = width) {r e : Nat} (hr : r < rows.length) (he : e < width) :
    pointerTo rows (r * width + e) = (rows.getD r []).getD e 0 := by
  have hrow : rows[(r * width + e) / width]? = some (rows.getD r []) := by
    rw [Loop.index_div he]
    simp [List.getD_eq_getElem?_getD, hr]
  have hflat := Loop.flatMap_getElem?_of_length (g := id) hwidth hrow
  rw [List.flatMap_id, Loop.index_mod he] at hflat
  rw [pointerTo, List.getD_eq_getElem?_getD, hflat, List.getD_eq_getElem?_getD]
  rfl

theorem readRow_eq [Zero K] {rows : Rows K} {width : Nat}
    (hwidth : ∀ row ∈ rows, row.length = width) {r a : Nat} (hr : r < rows.length) {buffer : Nat → K}
    (h : ∀ e < width, buffer (a * width + e) = pointerTo rows (r * width + e)) :
    readRow width buffer a = rows.getD r [] := by
  have hmem : rows.getD r [] ∈ rows := by
    rw [List.getD_eq_getElem?_getD, List.getElem?_eq_getElem hr]
    exact List.getElem_mem hr
  apply readRow_of_getD (hwidth _ hmem)
  intro e he
  rw [h e he, pointerTo_row hwidth hr he]

theorem pointerTo_readRows [Zero K] {width n r e : Nat} (hr : r < n) (he : e < width) (buffer : Nat → K) :
    pointerTo (readRows width n buffer) (r * width + e) = buffer (r * width + e) := by
  have hwidth : ∀ row ∈ readRows width n buffer, row.length = width := by
    intro row hrow
    obtain ⟨r', _, rfl⟩ := List.mem_map.mp hrow
    exact length_readRow width buffer r'
  rw [pointerTo_row hwidth (by simpa using hr) he, getD_readRows hr, getD_readRow he]

theorem readRow_storeRange (width off n r : Nat) (src buffer : Nat → K) :
    readRow width (Loop.storeRange (off * width) (n * width) src buffer) r =
      if off ≤ r ∧ r < off + n then readRow width src (r - off) else readRow width buffer r := by
  have hrange : ∀ e < width, (off * width ≤ r * width + e ∧ r * width + e < off * width + n * width) ↔
      off ≤ r ∧ r < off + n := by
    intro e he
    have hpos := Nat.zero_lt_of_lt he
    rw [← Nat.add_mul, ← Nat.le_div_iff_mul_le hpos, ← Nat.div_lt_iff_lt_mul hpos, Loop.index_div he]
  split
  · next hr =>
    apply List.map_congr_left
    intro e he
    have he := List.mem_range.mp he
    have hcell : r * width + e - off * width = (r - off) * width + e := by
      have hle := Nat.mul_le_mul_right width hr.1
      rw [Nat.sub_mul]
      omega
    rw [Loop.storeRange, if_pos ((hrange e he).mpr hr), hcell]
  · next hr =>
    apply List.map_congr_left
    intro e he
    exact if_neg fun h => hr ((hrange e (List.mem_range.mp he)).mp h)

end InferenceEngine
