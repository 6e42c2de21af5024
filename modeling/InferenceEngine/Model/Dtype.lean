import InferenceEngine.Basic

/-!
# Storage formats

The storage formats of weights, and the conversion of a stored element to the bits of a `float`.
-/

namespace InferenceEngine

/-- `DType`. -/
inductive DType where
  | F32
  | F16
  | BF16
  deriving DecidableEq, Repr

def dtypeSize : DType → Nat
  | .F32 => 4
  | .F16 | .BF16 => 2

def dtypeFromString (name : String) : Except Error DType :=
  if name = "F32" then .ok .F32
  else if name = "F16" then .ok .F16
  else if name = "BF16" then .ok .BF16
  else .error (.runtimeError ("unsupported dtype '" ++ name ++ "'"))

/-- The loop of `f16_to_f32` that shifts a subnormal mantissa up to its leading one, at bit 10. A mantissa
that is not zero gets there in ten turns. -/
def normalize : Nat → BitVec 32 → Int → BitVec 32 × Int
  | 0, mant, e => (mant, e)
  | fuel + 1, mant, e =>
    if mant &&& 0x400#32 = 0#32 then normalize fuel (mant <<< 1) (e - 1) else (mant, e)

/-- `f16_to_f32`, up to the bits of its result. -/
def f16ToF32 (bits : BitVec 16) : BitVec 32 :=
  let sign := (bits &&& 0x8000#16).zeroExtend 32 <<< 16
  let exp := (bits >>> 10) &&& 0x1F#16
  let mant := (bits &&& 0x3FF#16).zeroExtend 32
  if exp = 0#16 then
    if mant = 0#32 then sign
    else
      let (mant, e) := normalize 10 mant 1
      sign ||| (BitVec.ofInt 32 (e + (127 - 15)) <<< 23) ||| ((mant &&& 0x3FF#32) <<< 13)
  else if exp = 0x1F#16 then sign ||| 0x7F800000#32 ||| (mant <<< 13)
  else sign ||| (BitVec.ofNat 32 (exp.toNat + (127 - 15)) <<< 23) ||| (mant <<< 13)

def bf16ToF32 (bits : BitVec 16) : BitVec 32 := bits.zeroExtend 32 <<< 16

end InferenceEngine
