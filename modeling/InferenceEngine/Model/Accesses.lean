import InferenceEngine.Library.Checked
import InferenceEngine.Library.Wrap
import InferenceEngine.Model.Tensor
import Mathlib.Data.List.GetD
import Mathlib.Tactic.Ring

/-!
# Element accesses

The operations of `nn.cpp` once more, with the shapes of their tensors in place of the numbers: the checks they
make, the vectors they allocate, and every range of elements they touch, with sizes and offsets in the 64 bits
they are computed in. A vector may hold as many elements as `max_size` says, and allocating no more succeeds.
-/

namespace InferenceEngine

open Checked Wrap

/-- What is thrown: an exception of the engine, or `std::length_error` by a vector. -/
inductive Thrown where
  | error (error : Error)
  | lengthError
  deriving DecidableEq

abbrev Accesses (A : Type) := Checked Thrown A

/-- `max_size` of a vector, for elements of so many bytes. -/
@[irreducible] def maxSize (bytes : Nat) : Nat := (2 ^ 63 - 1) / bytes

/-- `num_elements`. -/
def Dims.count (d : Dims) : Int := if d = [] then 0 else d.foldl (fun (n : Int) (dim : Nat) => int64 (n * dim)) 1

/-- The size of the vector behind a tensor. -/
def Dims.size (d : Dims) : Nat := sizeT d.count

/-- The shape of a tensor that could be constructed. -/
structure Shape where
  dims : Dims
  dims_lt : ∀ d ∈ dims, d < 2 ^ 63
  size_le : dims.size ≤ maxSize 4

def Shape.ofDims (dims : Dims) : Option Shape :=
  if h : (∀ d ∈ dims, d < 2 ^ 63) ∧ dims.size ≤ maxSize 4 then some ⟨dims, h.1, h.2⟩ else none

namespace Shapes

def invalid (message : String) : Thrown := .error (.invalidArgument message)

def touch (size : Nat) (off : Int) (n : Nat) : Accesses Unit := access (InBuffer size off n)

/-- The constructor of a tensor from its shape. -/
def create (d : Dims) : Accesses Dims := do
  require (d.size ≤ maxSize 4) .lengthError
  return d

/-- The elements `memcpy` copies for a size of `n` times `sizeof(float)`. -/
def floats (n : Int) : Nat := sizeT (4 * n) / 4

/-- The product of Eigen. One without entries reads nothing. -/
def product (x weight y : Dims) (s width out : Nat) : Accesses Unit :=
  if s * out = 0 then return ()
  else do
    touch x.size 0 (s * width)
    touch weight.size 0 (out * width)
    touch y.size 0 (s * out)

def addBias (bias : Dims) (out : Nat) : Accesses Unit :=
  if 0 < bias.count then do
    require (bias.count = out) (invalid "linear: bias size does not match output")
    touch bias.size 0 out
  else return ()

/-- `linear`. A missing bias is a tensor without elements. -/
def linear (x weight bias : Dims) : Accesses Dims := do
  require (x.length = 2 ∧ weight.length = 2) (invalid "linear: x and weight must be 2D")
  let s := x.getD 0 0
  let width := x.getD 1 0
  let out := weight.getD 0 0
  require (weight.getD 1 0 = width) (invalid "linear: weight inner dimension does not match x")
  let y ← create [s, out]
  product x weight y s width out
  addBias bias out
  return y

def rmsNormRow (x weight out : Dims) (h i : Nat) : Accesses Unit := do
  touch x.size (int64 (i * h : Nat)) h
  touch weight.size 0 h
  touch out.size (int64 (i * h : Nat)) h

def rmsNorm (x weight : Dims) : Accesses Dims := do
  require (x.length = 2) (invalid "rms_norm: x must be 2D")
  let s := x.getD 0 0
  let h := x.getD 1 0
  require (weight.count = h) (invalid "rms_norm: weight size does not match hidden dim")
  let out ← create [s, h]
  loop s (rmsNormRow x weight out h)
  return out

def siluMul (gate up : Dims) : Accesses Dims := do
  require (gate = up) (invalid "silu_mul: gate and up shapes must match")
  let out ← create gate
  let n := gate.count.toNat
  touch gate.size 0 n
  touch up.size 0 n
  touch out.size 0 n
  return out

def embeddingRow (weight out : Dims) (vocab h : Nat) (ids : List Int) (i : Nat) : Accesses Unit := do
  let id := ids.getD i 0
  require (0 ≤ id ∧ id < vocab) (.error (.outOfRange "embedding: token id out of range"))
  touch out.size (int64 (i * h : Nat)) (floats h)
  touch weight.size (int64 (id * h)) (floats h)

def embedding (weight : Dims) (ids : List Int) : Accesses Dims := do
  require (weight.length = 2) (invalid "embedding: weight must be 2D")
  let vocab := weight.getD 0 0
  let h := weight.getD 1 0
  let out ← create [ids.length, h]
  loop ids.length (embeddingRow weight out vocab h ids)
  return out

def ropePair (x : Dims) (head : Int) (half i : Nat) : Accesses Unit := do
  touch x.size (head + i) 1
  touch x.size (head + (i + half : Nat)) 1

def ropeInplace (x : Dims) (nHeads headDim positions : Nat) : Accesses Dims := do
  require (x.length = 2 ∧ (x.getD 1 0 : Int) = int64 (nHeads * headDim : Nat))
    (invalid "rope: x must be [S, n_heads*head_dim]")
  let s := x.getD 0 0
  require (positions = s) (invalid "rope: positions size must match sequence length")
  let half := headDim / 2
  require (half ≤ maxSize 8) .lengthError
  loop s fun t => loop nHeads fun hh =>
    loop half (ropePair x (int64 (t * nHeads * headDim : Nat) + int64 (hh * headDim : Nat)) half)
  return x

/-- A key of a head: the key, its score and its value. -/
def attentionKey (k v : Dims) (total nKvHeads headDim kvh j : Nat) : Accesses Unit := do
  touch k.size (int64 (j * nKvHeads * headDim : Nat) + int64 (kvh * headDim : Nat)) headDim
  touch total j 1
  touch v.size (int64 (j * nKvHeads * headDim : Nat) + int64 (kvh * headDim : Nat)) headDim

def attentionHead (q k v out : Dims) (total nHeads nKvHeads headDim queryOffset h i : Nat) : Accesses Unit := do
  let group := nHeads / nKvHeads
  let kvh := h / group
  let last := queryOffset + i
  touch q.size (int64 (i * nHeads * headDim : Nat) + int64 (h * headDim : Nat)) headDim
  loop (last + 1) (attentionKey k v total nKvHeads headDim kvh)
  touch out.size (int64 (i * nHeads * headDim : Nat) + int64 (h * headDim : Nat)) headDim

/-- `attention`. Its two vectors of `double` hold the scores and the sum of a head. -/
def attention (q k v : Dims) (nHeads nKvHeads headDim queryOffset : Nat) : Accesses Dims := do
  let qLen := q.getD 0 0
  let total := k.getD 0 0
  let qDim := int64 (nHeads * headDim : Nat)
  let kvDim := int64 (nKvHeads * headDim : Nat)
  require ((q.getD 1 0 : Int) = qDim) (invalid "attention: q must be [q_len, n_heads*head_dim]")
  require (v.getD 0 0 = total ∧ (k.getD 1 0 : Int) = kvDim ∧ (v.getD 1 0 : Int) = kvDim)
    (invalid "attention: k/v shape mismatch")
  require (nKvHeads ≠ 0 ∧ nHeads % nKvHeads = 0) (invalid "attention: n_heads must be a multiple of n_kv_heads")
  require (int64 (queryOffset + qLen : Nat) ≤ total)
    (invalid "attention: query_offset + q_len exceeds key length")
  let out ← create [qLen, qDim.toNat]
  require (total ≤ maxSize 8) .lengthError
  require (headDim ≤ maxSize 8) .lengthError
  loop nHeads fun h => loop qLen (attentionHead q k v out total nHeads nKvHeads headDim queryOffset h)
  return out

def addElement (x y : Dims) (i : Nat) : Accesses Unit := do
  touch x.size i 1
  touch y.size i 1

def addInplace (x y : Dims) : Accesses Dims := do
  loop x.count.toNat (addElement x y)
  return x

/-! ### Sizes -/

theorem maxSize_four : maxSize 4 = 2 ^ 61 - 1 := by simp [maxSize]

theorem maxSize_eight : maxSize 8 = 2 ^ 60 - 1 := by simp [maxSize]

theorem size_nil_le (n : Nat) : Dims.size [] ≤ n := by simp [Dims.size, Dims.count, sizeT]

theorem count_matrix (rows cols : Nat) : Dims.count [rows, cols] = int64 (rows * cols : Nat) := by
  rw [Dims.count, if_neg (List.cons_ne_nil _ _), List.foldl_cons, List.foldl_cons, List.foldl_nil, one_mul,
    int64_int64_mul, Int.natCast_mul]

theorem size_matrix (rows cols : Nat) : Dims.size [rows, cols] = rows * cols % 2 ^ 64 := by
  rw [Dims.size, count_matrix, sizeT_int64, sizeT_natCast]

/-- A matrix that could be allocated holds its elements unless their number wraps. -/
theorem le_size_iff {rows cols : Nat} (hsize : Dims.size [rows, cols] ≤ maxSize 4) :
    rows * cols ≤ Dims.size [rows, cols] ↔ rows * cols < 2 ^ 63 := by
  rw [size_matrix, maxSize_four] at *
  omega

theorem size_of_le {rows cols : Nat} (hle : rows * cols ≤ maxSize 4) : Dims.size [rows, cols] = rows * cols := by
  rw [size_matrix]
  rw [maxSize_four] at hle
  omega

theorem count_of_le {rows cols : Nat} (hle : rows * cols ≤ maxSize 4) :
    Dims.count [rows, cols] = (rows * cols : Nat) := by
  rw [count_matrix]
  rw [maxSize_four] at hle
  exact int64_natCast (by omega)

theorem count_lt (d : Dims) : d.count < 2 ^ 63 := by
  obtain rfl | ⟨init, last, rfl⟩ := d.eq_nil_or_concat
  · decide
  · rw [Dims.count, if_neg (by simp), List.concat_eq_append, List.foldl_append]
    exact int64_lt _

/-- A tensor that exists has as many elements as it counts. -/
theorem le_of_count_eq {d : Dims} {n : Nat} (hsize : d.size ≤ maxSize 4) (hcount : d.count = n) :
    d.size = n ∧ n ≤ maxSize 4 := by
  have hlt := count_lt d
  have hsame : d.size = n := by rw [Dims.size, hcount, sizeT_natCast, Nat.mod_eq_of_lt (by omega)]
  exact ⟨hsame, hsame ▸ hsize⟩

theorem floats_natCast {n : Nat} (hn : n < 2 ^ 62) : floats n = n := by
  rw [floats, sizeT]
  omega

theorem touches_touch (size : Nat) (off : Int) (n : Nat) : Touches (touch size off n) (InBuffer size off n) :=
  touches_access

theorem touches_front (size n : Nat) : Touches (touch size 0 n) (n ≤ size) :=
  touches_access.congr (by rw [InBuffer]; omega)

theorem create_bind {A : Type} {d : Dims} {f : Dims → Accesses A} (h : d.size ≤ maxSize 4) :
    (create d >>= f) = f d := by
  rw [create, require_bind h]
  rfl

theorem staged_create {A : Type} {d : Dims} {f : Dims → Accesses A} {rest : List Stage} {a : A}
    (hrest : d.size ≤ maxSize 4 → Staged (f d) rest a) :
    Staged (create d >>= f) (.check (d.size ≤ maxSize 4) :: rest) a := by
  rw [create, bind_assoc]
  exact staged_require Iff.rfl hrest

/-! ### Paths -/

theorem touches_product {s h out : Nat} {w : Dims} (hs : 0 < s) (hx : Dims.size [s, h] ≤ maxSize 4)
    (hw : w = [out, h]) (hsize : w.size ≤ maxSize 4) (hy : Dims.size [s, out] ≤ maxSize 4) :
    Touches (product [s, h] w [s, out] s h out)
      (out = 0 ∨ s * h < 2 ^ 63 ∧ out * h < 2 ^ 63 ∧ s * out < 2 ^ 63) := by
  subst hw
  rw [product]
  by_cases hout : out = 0
  · rw [if_pos (by rw [hout, Nat.mul_zero])]
    exact touches_ok.congr (iff_of_true trivial (.inl hout))
  · rw [if_neg (Nat.mul_ne_zero (Nat.ne_of_gt hs) hout)]
    apply ((touches_front _ _).bind fun _ => (touches_front _ _).bind fun _ => touches_front _ _).congr
    rw [le_size_iff hx, le_size_iff hsize, le_size_iff hy, or_iff_right hout]

theorem staged_addBias {bias : Dims} {out : Nat} (hsize : bias.size ≤ maxSize 4) :
    Staged (addBias bias out) [.check (bias.count ≤ 0 ∨ bias.count = out)] () := by
  rw [addBias]
  by_cases hcount : 0 < bias.count
  · rw [if_pos hcount]
    apply staged_require (or_iff_right (not_le.mpr hcount)).symm
    intro hout
    have hout := hout.resolve_left (not_le.mpr hcount)
    have hsame := le_of_count_eq hsize hout
    rw [(touches_front _ _).ok hsame.1.ge]
    exact staged_ok ()
  · rw [if_neg hcount]
    exact staged_check (fun _ => staged_ok ()) fun hnot => absurd (.inl (not_lt.mp hcount)) hnot

def linearPath (s h : Nat) (weight bias : Dims) : List Stage :=
  let out := weight.getD 0 0
  [.check (weight.length = 2), .check (weight.getD 1 0 = h), .check (Dims.size [s, out] ≤ maxSize 4),
    .touch (out = 0 ∨ s * h < 2 ^ 63 ∧ out * h < 2 ^ 63 ∧ s * out < 2 ^ 63),
    .check (bias.count ≤ 0 ∨ bias.count = out)]

theorem staged_linear {s h : Nat} {weight bias : Dims} (hs : 0 < s) (hx : Dims.size [s, h] ≤ maxSize 4)
    (hweight : weight.size ≤ maxSize 4) (hbias : bias.size ≤ maxSize 4) :
    Staged (linear [s, h] weight bias) (linearPath s h weight bias) [s, weight.getD 0 0] := by
  rw [linear]
  apply staged_require (and_iff_right rfl)
  intro hlen
  apply staged_require Iff.rfl
  intro hwidth
  apply staged_create
  intro hy
  have hw : weight = [weight.getD 0 0, h] := by
    obtain ⟨out, width, rfl⟩ := List.length_eq_two.mp hlen
    have hcols : width = h := hwidth
    rw [hcols]
    rfl
  apply (touches_product hs hx hw hweight hy).staged
  intro _
  exact (staged_addBias hbias).bind fun _ => staged_ok _

/-- The result of an accepted product is a matrix that a vector holds. -/
theorem le_of_linearPath {s h : Nat} {weight bias : Dims} (hpass : AllPass (linearPath s h weight bias)) :
    s * weight.getD 0 0 ≤ maxSize 4 := by
  obtain ⟨-, -, hsize, hfit, -⟩ := hpass
  obtain hzero | hfit := hfit
  · rw [hzero, Nat.mul_zero]
    exact Nat.zero_le _
  · exact ((le_size_iff hsize).mpr hfit.2.2).trans hsize

/-- A matrix that a vector holds, once its rows are no longer than a vector. -/
def Solid (s h : Nat) : Prop := h ≤ maxSize 4 → s * h ≤ maxSize 4

theorem touches_rmsNormRow (x weight out : Dims) (h i : Nat) : Touches (rmsNormRow x weight out h i)
    (InBuffer x.size (int64 (i * h : Nat)) h ∧ h ≤ weight.size ∧ InBuffer out.size (int64 (i * h : Nat)) h) :=
  (touches_touch _ _ _).bind fun _ => (touches_front _ _).bind fun _ => touches_touch _ _ _

theorem staged_rmsNorm {s h : Nat} {weight : Dims} (hx : Solid s h) (hweight : weight.size ≤ maxSize 4) :
    Staged (rmsNorm [s, h] weight) [.check (weight.count = h)] [s, h] := by
  rw [rmsNorm, require_bind (by rfl : List.length [s, h] = 2)]
  apply staged_require Iff.rfl
  intro hcount
  have hcount : weight.count = h := hcount
  obtain ⟨hsize, hle⟩ := le_of_count_eq hweight hcount
  have hout := size_of_le (hx hle)
  have hall := hx hle
  rw [maxSize_four] at hall
  have hrows : ∀ i < s, InBuffer (Dims.size [s, h]) (int64 (i * h : Nat)) h :=
    (rows_inBuffer_iff (by omega)).mpr hout.ge
  have hloop : loop s (rmsNormRow [s, h] weight [s, h] h) = .ok () :=
    (touches_loop fun i _ => touches_rmsNormRow [s, h] weight [s, h] h i).ok fun i hi =>
      ⟨hrows i hi, hsize.ge, hrows i hi⟩
  have hcreate : Dims.size [s, h] ≤ maxSize 4 := hout ▸ hx hle
  change Staged (create [s, h] >>= fun out => loop s (rmsNormRow [s, h] weight out h) >>= fun _ => .ok out) _ _
  rw [create_bind hcreate, hloop]
  exact staged_ok _

theorem staged_siluMul {s i i' : Nat} (hgate : s * i ≤ maxSize 4) :
    Staged (siluMul [s, i] [s, i']) [.check (i = i')] [s, i] := by
  rw [siluMul]
  apply staged_require (by simp)
  intro hsame
  subst hsame
  have hsize := size_of_le hgate
  have hn : (Dims.count [s, i]).toNat ≤ Dims.size [s, i] := by rw [count_of_le hgate, hsize, Int.toNat_natCast]
  have hcreate : Dims.size [s, i] ≤ maxSize 4 := hsize ▸ hgate
  rw [create_bind hcreate]
  dsimp only
  rw [(touches_front _ _).ok hn]
  exact staged_ok _

/-- The row of one token: its bounds check, and the copy of its row of the embedding. -/
def embeddingRowPath (weight : Dims) (ids : List Int) (i : Nat) : List Stage :=
  let id := ids.getD i 0
  let h := weight.getD 1 0
  [.check (0 ≤ id ∧ id < weight.getD 0 0),
    .touch (InBuffer (Dims.size [ids.length, h]) (int64 (i * h : Nat)) (floats h) ∧
      InBuffer weight.size (int64 (id * h)) (floats h))]

def embeddingPath (weight : Dims) (ids : List Int) : List Stage :=
  [.check (weight.length = 2), .check (Dims.size [ids.length, weight.getD 1 0] ≤ maxSize 4)] ++
    (List.range ids.length).flatMap (embeddingRowPath weight ids)

theorem staged_embedding (weight : Dims) (ids : List Int) :
    Staged (embedding weight ids) (embeddingPath weight ids) [ids.length, weight.getD 1 0] := by
  rw [embedding]
  apply staged_require Iff.rfl
  intro _
  apply staged_create
  intro _
  have hrows : Staged (loop ids.length (embeddingRow weight [ids.length, weight.getD 1 0] (weight.getD 0 0)
      (weight.getD 1 0) ids)) ((List.range ids.length).flatMap (embeddingRowPath weight ids)) () := by
    apply staged_forM
    intro i _
    rw [embeddingRow]
    apply staged_require Iff.rfl
    intro _
    exact ((touches_touch _ _ _).bind fun _ => touches_touch _ _ _).alone
  exact hrows.followed rfl

/-- Tokens that were all embedded have rows that a vector holds. -/
theorem solid_of_embedded {weight : Dims} {ids : List Int} (hpass : AllPass (embeddingPath weight ids)) :
    Solid ids.length (weight.getD 1 0) := by
  intro hle
  rw [embeddingPath, allPass_append, allPass_flatMap] at hpass
  obtain ⟨⟨-, hsize, -⟩, hrows⟩ := hpass
  have hbound := maxSize_four
  have hfit : ∀ i < ids.length, InBuffer (Dims.size [ids.length, weight.getD 1 0])
      (int64 (i * weight.getD 1 0 : Nat)) (weight.getD 1 0) := by
    intro i hi
    have hrow := (hrows i (List.mem_range.mpr hi)).2.1.1
    rwa [floats_natCast (by omega)] at hrow
  exact ((rows_inBuffer_iff (by omega)).mp hfit).trans hsize

theorem head_le {s n w t h : Nat} (ht : t < s) (hh : h < n) : t * n * w + h * w + w ≤ s * (n * w) := by
  rw [← Nat.add_mul, ← Nat.succ_mul, ← Nat.mul_assoc]
  exact Nat.mul_le_mul_right w (Loop.lt_work ht hh)

/-- The offsets of a head do not wrap in a matrix that a vector holds. -/
theorem head_offset {s n w t h : Nat} (hall : s * (n * w) ≤ maxSize 4) (ht : t < s) (hh : h < n) :
    int64 (t * n * w : Nat) + int64 (h * w : Nat) = (t * n * w + h * w : Nat) := by
  have hle := (head_le (w := w) ht hh).trans hall
  rw [maxSize_four] at hle
  rw [int64_natCast (by omega), int64_natCast (by omega), Int.natCast_add]

theorem touches_ropePair (x : Dims) (head : Int) (half i : Nat) : Touches (ropePair x head half i)
    (InBuffer x.size (head + i) 1 ∧ InBuffer x.size (head + (i + half : Nat)) 1) :=
  (touches_touch _ _ _).bind fun _ => touches_touch _ _ _

/-- A head far enough in has an offset past every vector, when the heads together are too wide. -/
theorem exists_head_past {n d : Nat} (hd : d / 2 ≤ maxSize 8) (hwide : 2 ^ 63 ≤ n * d) :
    ∃ h < n, maxSize 4 < h * d ∧ h * d < 2 ^ 63 := by
  rw [maxSize_eight] at hd
  rw [maxSize_four]
  have hpos : 0 < d := Nat.pos_of_mul_pos_left (by omega : 0 < n * d)
  have hle : 2 ^ 61 / d * d ≤ 2 ^ 61 := Nat.div_mul_le_self _ d
  have hlt : 2 ^ 61 < 2 ^ 61 / d * d + d := Nat.lt_div_mul_add hpos
  refine ⟨2 ^ 61 / d + 1, ?_, ?_, ?_⟩
  · apply Nat.lt_of_mul_lt_mul_right (a := d)
    rw [Nat.succ_mul]
    omega
  · rw [Nat.succ_mul]
    omega
  · rw [Nat.succ_mul]
    omega

theorem touches_rope {s width nHeads headDim : Nat} (hs : 0 < s) (hx : s * width ≤ maxSize 4) (hheads : nHeads < 2 ^ 63)
    (hdim : 0 < headDim) (hwidth : (width : Int) = int64 (nHeads * headDim : Nat)) (hhalf : headDim / 2 ≤ maxSize 8) :
    Touches (loop s fun t => loop nHeads fun hh => loop (headDim / 2) (ropePair [s, width]
      (int64 (t * nHeads * headDim : Nat) + int64 (hh * headDim : Nat)) (headDim / 2)))
      (nHeads * headDim < 2 ^ 63) := by
  have hsize := size_of_le hx
  apply (touches_loop fun t _ => touches_loop fun hh _ => touches_loop fun i _ =>
    touches_ropePair [s, width] _ _ i).congr
  constructor
  · intro hpairs
    refine not_le.mp fun hwide => ?_
    obtain ⟨hh, hlt, hpast, hexact⟩ := exists_head_past hhalf hwide
    have hpos : 0 < headDim / 2 := by
      refine Nat.pos_of_ne_zero fun hzero => ?_
      have hone : headDim = 1 := by omega
      rw [hone, Nat.mul_one] at hwide
      omega
    have hpair := (hpairs 0 hs hh hlt 0 hpos).1
    rw [Nat.zero_mul, Nat.zero_mul, int64_natCast (by omega), int64_natCast hexact, hsize, InBuffer] at hpair
    omega
  · intro hexact t ht hh hhh i hi
    rw [int64_natCast hexact] at hwidth
    have hwidth : width = nHeads * headDim := by omega
    subst hwidth
    have hle := head_le (w := headDim) ht hhh
    rw [head_offset hx ht hhh, hsize, InBuffer, InBuffer]
    omega

/-- Behind the check of its width, `rope_inplace` allocates the frequencies of half a head. -/
def ropePath (width nHeads headDim : Nat) : List Stage :=
  [.check ((width : Int) = int64 (nHeads * headDim : Nat)), .check (headDim / 2 ≤ maxSize 8),
    .touch (nHeads * headDim < 2 ^ 63)]

theorem staged_ropeInplace {s width nHeads headDim : Nat} (hs : 0 < s) (hx : s * width ≤ maxSize 4)
    (hheads : nHeads < 2 ^ 63) (hdim : 0 < headDim) :
    Staged (ropeInplace [s, width] nHeads headDim s) (ropePath width nHeads headDim) [s, width] := by
  rw [ropeInplace]
  apply staged_require (and_iff_right rfl)
  intro hwidth
  dsimp only
  rw [require_bind (by rfl : s = List.getD [s, width] 0 0)]
  apply staged_require Iff.rfl
  intro hhalf
  exact (touches_rope hs hx hheads hdim hwidth hhalf).staged fun _ => staged_ok _

theorem attentionHead_eq_ok {s total nHeads nKvHeads headDim queryOffset h i : Nat}
    (hq : s * (nHeads * headDim) ≤ maxSize 4) (hk : total * (nKvHeads * headDim) ≤ maxSize 4)
    (htotal : queryOffset + s ≤ total) (hmod : nHeads % nKvHeads = 0) (hh : h < nHeads) (hi : i < s) :
    attentionHead [s, nHeads * headDim] [total, nKvHeads * headDim] [total, nKvHeads * headDim]
      [s, nHeads * headDim] total nHeads nKvHeads headDim queryOffset h i = .ok () := by
  have hgroup : nHeads / nKvHeads * nKvHeads = nHeads := Nat.div_mul_cancel (Nat.dvd_of_mod_eq_zero hmod)
  have hkvh : h / (nHeads / nKvHeads) < nKvHeads := Nat.div_lt_of_lt_mul (by rwa [hgroup])
  have hhead : touch (Dims.size [s, nHeads * headDim]) (int64 (i * nHeads * headDim : Nat) + int64 (h * headDim : Nat))
      headDim = .ok () := by
    rw [head_offset hq hi hh, size_of_le hq]
    exact (touches_touch _ _ _).ok (inBuffer_natCast.mpr (.inr (head_le hi hh)))
  have hkeys : loop (queryOffset + i + 1) (attentionKey [total, nKvHeads * headDim] [total, nKvHeads * headDim]
      total nKvHeads headDim (h / (nHeads / nKvHeads))) = .ok () := by
    refine (touches_loop fun j hj => Touches.mk (fun _ : True => ?_) fun hnot => absurd trivial hnot).ok
      fun _ _ => trivial
    have hj : j < total := by omega
    have hrow : touch (Dims.size [total, nKvHeads * headDim]) (int64 (j * nKvHeads * headDim : Nat) +
        int64 (h / (nHeads / nKvHeads) * headDim : Nat)) headDim = .ok () := by
      rw [head_offset hk hj hkvh, size_of_le hk]
      exact (touches_touch _ _ _).ok (inBuffer_natCast.mpr (.inr (head_le hj hkvh)))
    rw [attentionKey, hrow, ok_bind, (touches_touch _ _ _).ok (inBuffer_one.mpr hj), ok_bind]
  rw [attentionHead, hhead, ok_bind, hkeys, ok_bind]

/-- Behind the checks of the shapes `attention` checks its heads, and allocates two vectors. -/
def attentionPath (total nHeads nKvHeads headDim : Nat) : List Stage :=
  [.check (nKvHeads ≠ 0 ∧ nHeads % nKvHeads = 0), .check (total ≤ maxSize 8), .check (headDim ≤ maxSize 8)]

theorem staged_attention {s total nHeads nKvHeads headDim queryOffset : Nat} (hqDim : nHeads * headDim < 2 ^ 63)
    (hkvDim : nKvHeads * headDim < 2 ^ 63) (hq : s * (nHeads * headDim) ≤ maxSize 4)
    (hk : total * (nKvHeads * headDim) ≤ maxSize 4) (htotal : queryOffset + s ≤ total) (hlt : total < 2 ^ 63) :
    Staged (attention [s, nHeads * headDim] [total, nKvHeads * headDim] [total, nKvHeads * headDim] nHeads nKvHeads
      headDim queryOffset) (attentionPath total nHeads nKvHeads headDim) [s, nHeads * headDim] := by
  have hlast : int64 (queryOffset + s : Nat) ≤ total := by
    rw [int64_natCast (by omega)]
    omega
  have hout : Dims.size [s, nHeads * headDim] ≤ maxSize 4 := by rwa [size_of_le hq]
  have hquery : ((List.getD [s, nHeads * headDim] 1 0 : Nat) : Int) = int64 (nHeads * headDim : Nat) :=
    (int64_natCast hqDim).symm
  have hkey : ((List.getD [total, nKvHeads * headDim] 1 0 : Nat) : Int) = int64 (nKvHeads * headDim : Nat) :=
    (int64_natCast hkvDim).symm
  rw [attention, require_bind hquery, require_bind ⟨rfl, hkey, hkey⟩]
  apply staged_require Iff.rfl
  intro hheads
  simp only [List.getD_cons_zero]
  rw [require_bind hlast, int64_natCast hqDim, Int.toNat_natCast, create_bind hout]
  apply staged_require Iff.rfl
  intro _
  apply staged_require Iff.rfl
  intro _
  have hloop : (loop nHeads fun h => loop s (attentionHead [s, nHeads * headDim] [total, nKvHeads * headDim]
      [total, nKvHeads * headDim] [s, nHeads * headDim] total nHeads nKvHeads headDim queryOffset h)) = .ok () := by
    refine (touches_loop fun h hh => touches_loop fun i hi => Touches.mk (fun _ : True => ?_) fun hnot =>
      absurd trivial hnot).ok fun _ _ _ _ => trivial
    exact attentionHead_eq_ok hq hk htotal hheads.2 hh hi
  rw [hloop]
  exact staged_ok _

/-- `add_inplace` reads past the end of a second tensor that has fewer columns. -/
theorem staged_addInplace {s h out : Nat} (hs : 0 < s) (hx : s * h ≤ maxSize 4) (hy : s * out ≤ maxSize 4) :
    Staged (addInplace [s, h] [s, out]) [.touch (h ≤ out)] [s, h] := by
  rw [addInplace, count_of_le hx, Int.toNat_natCast]
  have hloop := touches_loop (n := s * h) fun i _ => (touches_touch (Dims.size [s, h]) i 1).bind fun _ =>
    touches_touch (Dims.size [s, out]) i 1
  refine (hloop.congr ?_).staged fun _ => staged_ok _
  simp only [size_of_le hx, size_of_le hy, inBuffer_one]
  rw [← Nat.mul_le_mul_left_iff hs]
  exact ⟨fun hall => not_lt.mp fun hlt => (hall _ hlt).2.false, fun hle i hi => ⟨hi, hi.trans_le hle⟩⟩

end Shapes

end InferenceEngine
