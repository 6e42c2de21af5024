import InferenceEngine.Basic

/-!
# Parsed JSON

The values the JSON library hands out, and the accessors the engine uses on them. An accessor that does
not fit the value throws; what is kept of the exception is its text.
-/

namespace InferenceEngine

/-- A parsed value. A number is kept as its integer part, which is what a conversion to an integer type
reads; the members of an object come in the order of iteration, each key once. -/
inductive Json where
  | null
  | boolean (value : Bool)
  | number (value : Int)
  | string (value : String)
  | array (elements : List Json)
  | object (members : List (String × Json))

namespace Json

/-- The name of a value's type in the exception texts. -/
def typeName : Json → String
  | null => "null"
  | boolean _ => "boolean"
  | number _ => "number"
  | string _ => "string"
  | array _ => "array"
  | object _ => "object"

/-- A value that is not of the type it is read as. -/
def typeMustBe {α : Type} (expected : String) (j : Json) : Except String α :=
  .error ("[json.exception.type_error.302] type must be " ++ expected ++ ", but is " ++ j.typeName)

/-- A value that has no elements to look up. -/
def cannotUseAt {α : Type} (j : Json) : Except String α :=
  .error ("[json.exception.type_error.304] cannot use at() with " ++ j.typeName)

def atKey (key : String) : Json → Except String Json
  | object members =>
    match members.lookup key with
    | some value => .ok value
    | none => .error ("[json.exception.out_of_range.403] key '" ++ key ++ "' not found")
  | j => cannotUseAt j

def atIndex (index : Nat) : Json → Except String Json
  | array elements =>
    match elements[index]? with
    | some value => .ok value
    | none =>
      .error ("[json.exception.out_of_range.401] array index " ++ toString index ++ " is out of range")
  | j => cannotUseAt j

def getString : Json → Except String String
  | string value => .ok value
  | j => typeMustBe "string" j

/-- `get<int64_t>()`: a cast modulo `2 ^ 64`. -/
def getInt64 : Json → Except String (BitVec 64)
  | number value => .ok (BitVec.ofInt 64 value)
  | j => typeMustBe "number" j

def getInt64s : Json → Except String (List (BitVec 64))
  | array elements => elements.mapM getInt64
  | j => typeMustBe "array" j

/-- `items()`: the members of an object, the elements of an array under their indices, nothing for null,
and any other value once, without a key. -/
def items : Json → List (String × Json)
  | object members => members
  | array elements => elements.mapIdx fun i value => (toString i, value)
  | null => []
  | j => [("", j)]

end Json

end InferenceEngine
