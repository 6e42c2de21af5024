import InferenceEngine.Model.Dtype
import InferenceEngine.Model.Json

/-!
# The safetensors format

`SafeTensors::parse`: an eight-byte header length, a JSON header, and the bytes of the tensors. Every
entry is checked against the buffer before its elements are read, and the byte ranges of the tensors may
not overlap. The JSON parser is a parameter; a text it rejects comes back as the text of its exception.
-/

namespace InferenceEngine

/-- `num_elements`, in the wrapping arithmetic of a 64-bit machine. -/
def numElements (shape : List (BitVec 64)) : BitVec 64 :=
  if shape = [] then 0#64 else shape.foldl (· * ·) 1#64

/-- `Tensor`: the bits of its elements, as many as the shape has. -/
structure Tensor where
  shape : List (BitVec 64)
  data : List (BitVec 32)
  size_eq : (numElements shape).toNat = data.length
  deriving DecidableEq

/-- The constructor from a shape and its elements. -/
def Tensor.create (shape : List (BitVec 64)) (data : List (BitVec 32)) : Except Error Tensor :=
  if h : (numElements shape).toNat = data.length then .ok ⟨shape, data, h⟩
  else .error (.invalidArgument "Tensor: shape does not match data size")

/-- `SafeTensors`: the tensors by name. -/
structure SafeTensors where
  tensors : List (String × Tensor) := []
  deriving DecidableEq

namespace SafeTensors

def byteAt (data : List UInt8) (i : Nat) : Nat := (data.getD i 0).toNat

/-- The header length: eight bytes, low byte first. -/
def headerLength (data : List UInt8) : BitVec 64 :=
  (List.range 8).foldl (fun len i => len ||| (BitVec.ofNat 64 (byteAt data i) <<< (8 * i))) 0#64

def littleEndianU16 (data : List UInt8) (p : Nat) : BitVec 16 :=
  BitVec.ofNat 16 (byteAt data p) ||| (BitVec.ofNat 16 (byteAt data (p + 1)) <<< 8)

/-- The four bytes of a stored `float`, as `memcpy` reads them. -/
def littleEndianU32 (data : List UInt8) (p : Nat) : BitVec 32 :=
  (List.range 4).foldl (fun bits i => bits ||| (BitVec.ofNat 32 (byteAt data (p + i)) <<< (8 * i))) 0#32

/-- The elements of a tensor that starts at byte `p`. -/
def readElements (dtype : DType) (data : List UInt8) (p numel : Nat) : List (BitVec 32) :=
  (List.range numel).map fun i =>
    match dtype with
    | .F32 => littleEndianU32 data (p + 4 * i)
    | .F16 => f16ToF32 (littleEndianU16 data (p + 2 * i))
    | .BF16 => bf16ToF32 (littleEndianU16 data (p + 2 * i))

/-- The handler around the loop over the header's entries. -/
def malformed {α : Type} : Except String α → Except Error α
  | .ok a => .ok a
  | .error what => .error (.runtimeError ("safetensors: malformed header entry: " ++ what))

def entryShape (entry : Json) : Except String (List (BitVec 64)) := do (← entry.atKey "shape").getInt64s

/-- One entry of the header: the tensor and its byte range. `base` is where the tensor bytes start. -/
def parseEntry (data : List UInt8) (base region : Nat) (name : String) (entry : Json) :
    Except Error (Tensor × Nat × Nat) := do
  let dtype ← dtypeFromString (← malformed do (← entry.atKey "dtype").getString)
  let shape ← malformed (entryShape entry)
  let offsets ← malformed (entry.atKey "data_offsets")
  let first ← malformed do (← offsets.atIndex 0).getInt64
  let last ← malformed do (← offsets.atIndex 1).getInt64
  let first := first.toNat
  let last := last.toNat
  if last < first ∨ region < last then
    throw (.runtimeError ("safetensors: data_offsets out of range for " ++ name))
  if shape.any fun d => d.toInt < 0 then
    throw (.runtimeError ("safetensors: negative dimension for " ++ name))
  let numel := numElements shape
  let elemSize := dtypeSize dtype
  let nbytes := last - first
  if nbytes % elemSize ≠ 0 ∨ nbytes / elemSize ≠ numel.toNat then
    throw (.runtimeError ("safetensors: byte count does not match shape for " ++ name))
  let tensor ← Tensor.create shape (readElements dtype data (base + first) numel.toNat)
  return (tensor, first, last)

def parseEntries (data : List UInt8) (base region : Nat) :
    List (String × Json) → List (String × Tensor) → List (Nat × Nat) →
      Except Error (List (String × Tensor) × List (Nat × Nat))
  | [], tensors, spans => .ok (tensors, spans)
  | (name, entry) :: items, tensors, spans => do
    if name = "__metadata__" then
      parseEntries data base region items tensors spans
    else
      let (tensor, span) ← parseEntry data base region name entry
      if name ∈ tensors.map Prod.fst then
        throw (.runtimeError ("safetensors: duplicate tensor name '" ++ name ++ "'"))
      parseEntries data base region items (tensors ++ [(name, tensor)]) (spans ++ [span])

/-- Whether neighbours of a sorted list of byte ranges overlap. -/
def overlapping (spans : List (Nat × Nat)) : Bool :=
  let sorted := spans.mergeSort fun a b => a.1 < b.1 || (a.1 == b.1 && a.2 ≤ b.2)
  (sorted.zip sorted.tail).any fun (a, b) => b.1 < a.2

def parseHeader (parseJson : List UInt8 → Except String Json) (data : List UInt8) : Except Error Json :=
  if data.length < 8 then
    .error (.runtimeError "safetensors: buffer smaller than the 8-byte header length")
  else if data.length - 8 < (headerLength data).toNat then
    .error (.runtimeError "safetensors: header length exceeds the buffer")
  else
    match parseJson ((data.drop 8).take (headerLength data).toNat) with
    | .ok header => .ok header
    | .error what => .error (.runtimeError ("safetensors: invalid header JSON: " ++ what))

def parse (parseJson : List UInt8 → Except String Json) (data : List UInt8) : Except Error SafeTensors := do
  let header ← parseHeader parseJson data
  let base := 8 + (headerLength data).toNat
  let region := data.length - 8 - (headerLength data).toNat
  let (tensors, spans) ← parseEntries data base region header.items [] []
  if overlapping spans then
    throw (.runtimeError "safetensors: overlapping tensor data regions")
  return ⟨tensors⟩

end SafeTensors

end InferenceEngine
