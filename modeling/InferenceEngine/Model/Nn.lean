import InferenceEngine.Basic

/-!
# The operations of the forward pass

The float kernels are taken as exact functions of one row: `linear`, `rms_norm` and `silu_mul` act row
by row, `rope` also reads the row's position, and an attention row reads its query and the keys and
values it may look at. The operations on whole tensors are those of `nn.cpp` with the checks that
depend on their arguments' row counts.
-/

namespace InferenceEngine

/-- The float kernels over weights `W`, quantised weights `Q` and scalars `K`. -/
structure Kernels (W Q K : Type) where
  /-- A row times the transposed weight, plus the bias if there is one. -/
  linear : Row K → W → Option W → Row K
  /-- The same with an int8 weight. -/
  linearInt8 : Row K → Q → Option W → Row K
  rmsNorm : Row K → W → K → Row K
  siluMul : Row K → Row K → Row K
  /-- Heads, head dimension, `theta` and the position of the row. -/
  rope : Nat → Nat → K → Nat → Row K → Row K
  /-- Query heads, key heads, head dimension, the query row and keys and values `0..last`. -/
  attention : Nat → Nat → Nat → Row K → Rows K → Rows K → Row K
  add : Row K → Row K → Row K
  /-- The number of rows of an embedding table. -/
  vocab : W → Nat
  /-- A row of an embedding table. -/
  embeddingRow : W → Nat → Row K

namespace Kernels

variable {W Q K : Type} (kn : Kernels W Q K)

def embedding (weight : W) (ids : List Int) : Except Error (Rows K) :=
  ids.mapM fun id =>
    if id < 0 ∨ (kn.vocab weight : Int) ≤ id then
      .error (.outOfRange "embedding: token id out of range")
    else .ok (kn.embeddingRow weight id.toNat)

def linearRows (x : Rows K) (weight : W) (bias : Option W) : Rows K :=
  x.map fun row => kn.linear row weight bias

def linearInt8Rows (x : Rows K) (weight : Q) (bias : Option W) : Rows K :=
  x.map fun row => kn.linearInt8 row weight bias

def rmsNormRows (x : Rows K) (weight : W) (eps : K) : Rows K :=
  x.map fun row => kn.rmsNorm row weight eps

def siluMulRows (gate up : Rows K) : Rows K := List.zipWith kn.siluMul gate up

def addInplace (x y : Rows K) : Rows K := List.zipWith kn.add x y

def ropeInplace (x : Rows K) (nHeads headDim : Nat) (theta : K) (positions : List Nat) :
    Except Error (Rows K) :=
  if positions.length ≠ x.length then
    .error (.invalidArgument "rope: positions size must match sequence length")
  else .ok (List.zipWith (fun p row => kn.rope nHeads headDim theta p row) positions x)

/-- `attention`: query row `i` looks at keys and values `0..queryOffset + i`. -/
def attentionRows (q k v : Rows K) (nHeads nKvHeads headDim queryOffset : Nat) :
    Except Error (Rows K) :=
  if v.length ≠ k.length then .error (.invalidArgument "attention: k/v shape mismatch")
  else if nKvHeads = 0 ∨ nHeads % nKvHeads ≠ 0 then
    .error (.invalidArgument "attention: n_heads must be a multiple of n_kv_heads")
  else if k.length < queryOffset + q.length then
    .error (.invalidArgument "attention: query_offset + q_len exceeds key length")
  else
    .ok (q.mapIdx fun i row =>
      let last := queryOffset + i
      kn.attention nHeads nKvHeads headDim row (k.take (last + 1)) (v.take (last + 1)))

end Kernels

end InferenceEngine
