import Mathlib.Data.List.Basic
import Mathlib.Data.List.Infix
import Mathlib.Data.List.TakeDrop

/-!
# Causal decoder stacks

A decoder reads a list of tokens. Each of its blocks rewrites the list of hidden rows, and the row at
position `i` may look at the keys and values of positions `0..i` only. Two things follow and carry
every equivalence between ways of running the stack: the first `n` rows depend on the first `n` tokens
only, and a run that has the keys and values of the first `n` positions at hand can start at position
`n`.
-/

namespace Causal

/-- One attention block over hidden rows of type `R`. Positions are absolute. -/
structure Block (R : Type) where
  query : Nat → R → R
  key : Nat → R → R
  value : Nat → R → R
  /-- The attention row of a query, from the keys and values it may look at. -/
  attend : R → List R → List R → R
  /-- The new hidden row, from the old one and its attention row. -/
  finish : R → R → R

namespace Block

variable {R : Type} (B : Block R)

def keysFrom (p : Nat) (xs : List R) : List R := xs.mapIdx fun i x => B.key (p + i) x

def valuesFrom (p : Nat) (xs : List R) : List R := xs.mapIdx fun i x => B.value (p + i) x

/-- Attention rows of hidden rows at positions `p, p + 1, ...`, given the keys and values of every
position. -/
def attendFrom (p : Nat) (ks vs : List R) (xs : List R) : List R :=
  xs.mapIdx fun i x => B.attend (B.query (p + i) x) (ks.take (p + i + 1)) (vs.take (p + i + 1))

/-- The block on a list of rows starting at position `0`. -/
def run (xs : List R) : List R :=
  List.zipWith B.finish xs (B.attendFrom 0 (B.keysFrom 0 xs) (B.valuesFrom 0 xs) xs)

@[simp] theorem length_keysFrom (p : Nat) (xs : List R) : (B.keysFrom p xs).length = xs.length := by
  simp [keysFrom]

@[simp] theorem length_valuesFrom (p : Nat) (xs : List R) :
    (B.valuesFrom p xs).length = xs.length := by
  simp [valuesFrom]

@[simp] theorem length_attendFrom (p : Nat) (ks vs xs : List R) :
    (B.attendFrom p ks vs xs).length = xs.length := by
  simp [attendFrom]

@[simp] theorem length_run (xs : List R) : (B.run xs).length = xs.length := by
  simp [run]

theorem keysFrom_take (p n : Nat) (xs : List R) :
    (B.keysFrom p xs).take n = B.keysFrom p (xs.take n) := by
  apply List.ext_getElem <;> simp [keysFrom]

theorem valuesFrom_take (p n : Nat) (xs : List R) :
    (B.valuesFrom p xs).take n = B.valuesFrom p (xs.take n) := by
  apply List.ext_getElem <;> simp [valuesFrom]

theorem keysFrom_append (p : Nat) (xs ys : List R) :
    B.keysFrom p (xs ++ ys) = B.keysFrom p xs ++ B.keysFrom (p + xs.length) ys := by
  simp only [keysFrom, List.mapIdx_append, List.append_cancel_left_eq]
  congr 1
  funext i y
  rw [Nat.add_comm i, Nat.add_assoc]

theorem valuesFrom_append (p : Nat) (xs ys : List R) :
    B.valuesFrom p (xs ++ ys) = B.valuesFrom p xs ++ B.valuesFrom (p + xs.length) ys := by
  simp only [valuesFrom, List.mapIdx_append, List.append_cancel_left_eq]
  congr 1
  funext i y
  rw [Nat.add_comm i, Nat.add_assoc]

theorem run_take (n : Nat) (xs : List R) : (B.run xs).take n = B.run (xs.take n) := by
  apply List.ext_getElem
  · simp
  · intro i h _
    simp only [List.length_take, length_run] at h
    have hi : i + 1 ≤ n := by omega
    simp only [run, List.getElem_take, List.getElem_zipWith, attendFrom, List.getElem_mapIdx,
      ← keysFrom_take, ← valuesFrom_take, List.take_take, Nat.zero_add, Nat.min_eq_left hi]

/-- **A block can start at position `p`** when the keys and values of every position are at hand. -/
theorem run_drop (p : Nat) (xs : List R) :
    (B.run xs).drop p = List.zipWith B.finish (xs.drop p)
      (B.attendFrom p (B.keysFrom 0 xs) (B.valuesFrom 0 xs) (xs.drop p)) := by
  apply List.ext_getElem <;> simp [run, attendFrom]

end Block

/-- A stack of blocks with an embedding in front. -/
structure Decoder (T R : Type) where
  embed : T → R
  block : Nat → Block R

namespace Decoder

variable {T R : Type} (D : Decoder T R)

/-- The hidden rows entering block `l`. -/
def hidden : Nat → List T → List R
  | 0, ids => ids.map D.embed
  | l + 1, ids => (D.block l).run (hidden l ids)

def keys (l : Nat) (ids : List T) : List R := (D.block l).keysFrom 0 (D.hidden l ids)

def values (l : Nat) (ids : List T) : List R := (D.block l).valuesFrom 0 (D.hidden l ids)

@[simp] theorem length_hidden (l : Nat) (ids : List T) : (D.hidden l ids).length = ids.length := by
  induction l with
  | zero => simp [hidden]
  | succ l ih => simp [hidden, ih]

@[simp] theorem length_keys (l : Nat) (ids : List T) : (D.keys l ids).length = ids.length := by
  simp [keys]

@[simp] theorem length_values (l : Nat) (ids : List T) : (D.values l ids).length = ids.length := by
  simp [values]

@[simp] theorem keys_nil (l : Nat) : D.keys l [] = [] := List.eq_nil_of_length_eq_zero (by simp)

@[simp] theorem values_nil (l : Nat) : D.values l [] = [] := List.eq_nil_of_length_eq_zero (by simp)

/-- **Causality**: the first `n` rows depend on the first `n` tokens only. -/
theorem hidden_take (l n : Nat) (ids : List T) :
    (D.hidden l ids).take n = D.hidden l (ids.take n) := by
  induction l with
  | zero => simp [hidden, List.map_take]
  | succ l ih => rw [hidden, Block.run_take, ih, hidden]

theorem hidden_append_drop (l : Nat) (xs ys : List T) :
    D.hidden l (xs ++ ys) = D.hidden l xs ++ (D.hidden l (xs ++ ys)).drop xs.length := by
  conv_lhs => rw [← List.take_append_drop xs.length (D.hidden l (xs ++ ys))]
  rw [hidden_take, List.take_left']
  rfl

/-- The keys after a chunk: those before it, and those of its own rows. -/
theorem keys_append (l : Nat) (xs ys : List T) :
    D.keys l (xs ++ ys) = D.keys l xs ++
      (D.block l).keysFrom xs.length ((D.hidden l (xs ++ ys)).drop xs.length) := by
  conv_lhs => rw [keys, hidden_append_drop, Block.keysFrom_append, length_hidden, Nat.zero_add]
  rfl

theorem values_append (l : Nat) (xs ys : List T) :
    D.values l (xs ++ ys) = D.values l xs ++
      (D.block l).valuesFrom xs.length ((D.hidden l (xs ++ ys)).drop xs.length) := by
  conv_lhs => rw [values, hidden_append_drop, Block.valuesFrom_append, length_hidden, Nat.zero_add]
  rfl

/-- The keys of block `l` with its values. -/
def cells (l : Nat) (ids : List T) : List (R × R) := (D.keys l ids).zip (D.values l ids)

@[simp] theorem length_cells (l : Nat) (ids : List T) : (D.cells l ids).length = ids.length := by
  simp [cells]

theorem map_fst_cells (l : Nat) (ids : List T) : (D.cells l ids).map Prod.fst = D.keys l ids :=
  List.map_fst_zip (by simp)

theorem map_snd_cells (l : Nat) (ids : List T) : (D.cells l ids).map Prod.snd = D.values l ids :=
  List.map_snd_zip (by simp)

/-- The cells after a chunk: those before it, and those of its own rows. -/
theorem cells_append (l : Nat) (xs ys : List T) :
    D.cells l (xs ++ ys) = D.cells l xs ++
      ((D.block l).keysFrom xs.length ((D.hidden l (xs ++ ys)).drop xs.length)).zip
        ((D.block l).valuesFrom xs.length ((D.hidden l (xs ++ ys)).drop xs.length)) := by
  rw [cells, keys_append, values_append, List.zip_append (by simp), cells]

theorem cells_getElem?_of_prefix {l i : Nat} {xs ys : List T} (h : xs <+: ys) (hi : i < xs.length) :
    (D.cells l ys)[i]? = (D.cells l xs)[i]? := by
  obtain ⟨zs, rfl⟩ := h
  rw [cells_append, List.getElem?_append_left (by simpa using hi)]

/-- The embedded rows of a chunk are the rows from its first position on. -/
theorem hidden_zero_drop (xs ys : List T) :
    (D.hidden 0 (xs ++ ys)).drop xs.length = ys.map D.embed := by
  simp [hidden]

/-- **One block on a chunk**: the rows from the chunk's first position on, from the same rows one
block earlier and the keys and values of every position. -/
theorem hidden_succ_drop (l p : Nat) (ids : List T) :
    (D.hidden (l + 1) ids).drop p = List.zipWith (D.block l).finish ((D.hidden l ids).drop p)
      ((D.block l).attendFrom p (D.keys l ids) (D.values l ids) ((D.hidden l ids).drop p)) := by
  rw [hidden, Block.run_drop]
  rfl

/-- The rows entering block `l` that belong to a chunk. -/
def chunkRows (l : Nat) (xs ys : List T) : List R := (D.hidden l (xs ++ ys)).drop xs.length

/-- The attention rows of a chunk. -/
def chunkAttn (l : Nat) (xs ys : List T) : List R :=
  (D.block l).attendFrom xs.length (D.keys l (xs ++ ys)) (D.values l (xs ++ ys)) (D.chunkRows l xs ys)

@[simp] theorem length_chunkRows (l : Nat) (xs ys : List T) : (D.chunkRows l xs ys).length = ys.length := by
  simp [chunkRows]

@[simp] theorem length_chunkAttn (l : Nat) (xs ys : List T) : (D.chunkAttn l xs ys).length = ys.length := by
  simp [chunkAttn]

theorem chunkRows_zero (xs ys : List T) : D.chunkRows 0 xs ys = ys.map D.embed := D.hidden_zero_drop xs ys

theorem chunkRows_succ (l : Nat) (xs ys : List T) : D.chunkRows (l + 1) xs ys =
    List.zipWith (D.block l).finish (D.chunkRows l xs ys) (D.chunkAttn l xs ys) :=
  D.hidden_succ_drop l _ _

theorem keys_chunk (l : Nat) (xs ys : List T) : D.keys l (xs ++ ys) =
    D.keys l xs ++ (D.block l).keysFrom xs.length (D.chunkRows l xs ys) :=
  D.keys_append l xs ys

theorem values_chunk (l : Nat) (xs ys : List T) : D.values l (xs ++ ys) =
    D.values l xs ++ (D.block l).valuesFrom xs.length (D.chunkRows l xs ys) :=
  D.values_append l xs ys

end Decoder

end Causal
