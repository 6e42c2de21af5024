import InferenceEngine.Model.SafeTensors
import Mathlib.Algebra.Order.BigOperators.GroupWithZero.List
import Mathlib.Algebra.Order.Ring.Int

/-!
# The shapes of accepted tensors

The loader checks the size of a tensor against `num_elements`, the product of its dimensions modulo
`2 ^ 64`. A tensor it accepts has as many elements as its shape says exactly when that product does not
reach `2 ^ 64`.
-/

namespace InferenceEngine

/-- The product of the dimensions of a shape, over the integers. -/
def dimProduct (shape : List (BitVec 64)) : Int := (shape.map BitVec.toInt).prod

/-- The multiplication of `num_elements` is that of the integers, modulo `2 ^ 64`. -/
theorem foldl_mul_eq_ofInt (shape : List (BitVec 64)) (z : Int) :
    shape.foldl (· * ·) (BitVec.ofInt 64 z) = BitVec.ofInt 64 (z * dimProduct shape) := by
  induction shape generalizing z with
  | nil => simp [dimProduct]
  | cons d shape ih =>
    have hstep : BitVec.ofInt 64 z * d = BitVec.ofInt 64 (z * d.toInt) := by
      rw [BitVec.ofInt_mul, BitVec.ofInt_toInt]
    rw [List.foldl_cons, hstep, ih]
    simp only [dimProduct, List.map_cons, List.prod_cons, mul_assoc]

theorem numElements_eq_ofInt {shape : List (BitVec 64)} (h : shape ≠ []) :
    numElements shape = BitVec.ofInt 64 (dimProduct shape) := by
  rw [numElements, if_neg h, ← one_mul (dimProduct shape), ← foldl_mul_eq_ofInt]
  rfl

theorem dimProduct_nonneg {shape : List (BitVec 64)} (h : ∀ d ∈ shape, 0 ≤ d.toInt) :
    0 ≤ dimProduct shape := by
  refine List.prod_nonneg fun z hz => ?_
  obtain ⟨d, hd, rfl⟩ := List.mem_map.mp hz
  exact h d hd

namespace Tensor

/-- A tensor with dimensions has as many elements as their product. -/
def Honest (t : Tensor) : Prop := t.shape ≠ [] → dimProduct t.shape = t.data.length

theorem honest_iff {t : Tensor} (h : ∀ d ∈ t.shape, 0 ≤ d.toInt) :
    t.Honest ↔ dimProduct t.shape < 2 ^ 64 := by
  by_cases hne : t.shape = []
  · simp [Honest, hne, dimProduct]
  · have hsize := t.size_eq
    rw [numElements_eq_ofInt hne, BitVec.toNat_ofInt] at hsize
    have hpos := dimProduct_nonneg h
    simp only [Honest, hne, ne_eq, not_false_eq_true, true_implies]
    omega

end Tensor

namespace SafeTensors

/-- The shapes of the tensors that a header describes. -/
def headerShapes (items : List (String × Json)) : List (List (BitVec 64)) :=
  items.filterMap fun (name, entry) =>
    if name = "__metadata__" then none else (entryShape entry).toOption

def declaredShapes (parseJson : List UInt8 → Except String Json) (data : List UInt8) :
    List (List (BitVec 64)) :=
  match parseHeader parseJson data with
  | .ok header => headerShapes header.items
  | .error _ => []

theorem malformed_eq_ok {α : Type} {x : Except String α} {a : α} : malformed x = .ok a ↔ x = .ok a := by
  cases x <;> simp [malformed]

theorem create_eq_ok {shape : List (BitVec 64)} {data : List (BitVec 32)} {t : Tensor}
    (h : Tensor.create shape data = .ok t) : t.shape = shape := by
  rw [Tensor.create] at h
  split at h
  · cases h
    rfl
  · cases h

/-- An accepted entry: its tensor has the shape of the entry, without a negative dimension. -/
theorem parseEntry_eq_ok {data : List UInt8} {base region : Nat} {name : String} {entry : Json}
    {t : Tensor} {span : Nat × Nat} (h : parseEntry data base region name entry = .ok (t, span)) :
    entryShape entry = .ok t.shape ∧ ∀ d ∈ t.shape, 0 ≤ d.toInt := by
  simp only [parseEntry, throw_if_eq_ok, bind_eq_ok, malformed_eq_ok] at h
  obtain ⟨_, -, dtype, -, shape, hshape, _, -, _, -, _, -, -, hneg, -, tensor, htensor, hret⟩ := h
  obtain ⟨rfl, -⟩ := Prod.mk.inj (Except.ok.inj hret)
  rw [create_eq_ok htensor]
  refine ⟨hshape, fun d hd => not_lt.mp fun hlt => hneg ?_⟩
  exact List.any_eq_true.mpr ⟨d, hd, decide_eq_true hlt⟩

/-- The tensors of the header: one for every shape in it, in order. -/
theorem parseEntries_eq_ok {data : List UInt8} {base region : Nat} {items : List (String × Json)}
    {tensors tensors' : List (String × Tensor)} {spans spans' : List (Nat × Nat)}
    (h : parseEntries data base region items tensors spans = .ok (tensors', spans')) :
    ∃ added : List Tensor, tensors'.map Prod.snd = tensors.map Prod.snd ++ added ∧
      added.map Tensor.shape = headerShapes items ∧ ∀ t ∈ added, ∀ d ∈ t.shape, 0 ≤ d.toInt := by
  induction items generalizing tensors spans with
  | nil =>
    obtain ⟨rfl, -⟩ := Prod.mk.inj (Except.ok.inj h)
    exact ⟨[], by simp, rfl, by simp⟩
  | cons item items ih =>
    obtain ⟨name, entry⟩ := item
    by_cases hmeta : name = "__metadata__"
    · rw [parseEntries, if_pos hmeta] at h
      obtain ⟨added, htensors, hshapes, hpos⟩ := ih h
      exact ⟨added, htensors, by simpa [headerShapes, hmeta] using hshapes, hpos⟩
    · simp only [parseEntries, if_neg hmeta, bind_eq_ok, throw_if_eq_ok] at h
      obtain ⟨⟨t, span⟩, hentry, -, h⟩ := h
      obtain ⟨added, htensors, hshapes, hpos⟩ := ih h
      obtain ⟨hshape, hnonneg⟩ := parseEntry_eq_ok hentry
      refine ⟨t :: added, by simpa using htensors, ?_, ?_⟩
      · simpa [headerShapes, hmeta, hshape, Except.toOption] using hshapes
      · exact List.forall_mem_cons.mpr ⟨hnonneg, hpos⟩

/-- Every tensor of an accepted buffer is honest exactly when no shape in the header has a product of
`2 ^ 64` or more. -/
theorem honest_iff_declared {parseJson : List UInt8 → Except String Json} {data : List UInt8}
    {st : SafeTensors} (h : parse parseJson data = .ok st) :
    (∀ t ∈ st.tensors, t.2.Honest) ↔ ∀ shape ∈ declaredShapes parseJson data, dimProduct shape < 2 ^ 64 := by
  simp only [parse, bind_eq_ok, throw_if_eq_ok] at h
  obtain ⟨header, hheader, ⟨tensors, spans⟩, hentries, -, hret⟩ := h
  obtain ⟨added, htensors, hshapes, hpos⟩ := parseEntries_eq_ok hentries
  obtain rfl := Except.ok.inj hret
  have hdeclared : declaredShapes parseJson data = added.map Tensor.shape := by
    rw [declaredShapes, hheader, hshapes]
  calc (∀ t ∈ tensors, t.2.Honest) ↔ ∀ t ∈ tensors.map Prod.snd, t.Honest := List.forall_mem_map.symm
    _ ↔ ∀ t ∈ added, t.Honest := by rw [htensors]; simp
    _ ↔ ∀ t ∈ added, dimProduct t.shape < 2 ^ 64 :=
      forall₂_congr fun t ht => Tensor.honest_iff (hpos t ht)
    _ ↔ ∀ shape ∈ declaredShapes parseJson data, dimProduct shape < 2 ^ 64 := by
      rw [hdeclared, List.forall_mem_map]

/-! ### A product that wraps to zero -/

/-- The text of a header with one entry, whose two dimensions multiply to `2 ^ 64`. -/
def wrappedText : List UInt8 :=
  "\x7b\"a\":\x7b\"dtype\":\"F32\",\"shape\":[4294967296,4294967296],\"data_offsets\":[0,0]\x7d\x7d".toUTF8.toList

def wrappedBuffer : List UInt8 := [UInt8.ofNat wrappedText.length, 0, 0, 0, 0, 0, 0, 0] ++ wrappedText

/-- The parser, on the text of the header: it sorts the keys of an object. -/
def parseWrapped (text : List UInt8) : Except String Json :=
  if text = wrappedText then
    .ok (.object [("a", .object [("data_offsets", .array [.number 0, .number 0]), ("dtype", .string "F32"),
      ("shape", .array [.number 4294967296, .number 4294967296])])])
  else .error "[json.exception.parse_error.101] parse error"

/-- The tensor without elements that the buffer is accepted with. -/
def wrapped : SafeTensors := ⟨[("a", ⟨[4294967296#64, 4294967296#64], [], by decide⟩)]⟩

theorem parse_wrapped : parse parseWrapped wrappedBuffer = .ok wrapped := by
  decide +kernel

/-- An accepted buffer with a tensor of `2 ^ 64` elements by its shape, and of none in its data. -/
theorem accepts_dishonest_shape :
    parse parseWrapped wrappedBuffer = .ok wrapped ∧ ¬∀ t ∈ wrapped.tensors, t.2.Honest := by
  refine ⟨parse_wrapped, fun h => ?_⟩
  have hzero := h _ (List.mem_singleton_self _) (by decide)
  revert hzero
  decide

theorem honest_iff_declared_wrapped :
    (∀ t ∈ wrapped.tensors, t.2.Honest) ↔
      ∀ shape ∈ declaredShapes parseWrapped wrappedBuffer, dimProduct shape < 2 ^ 64 :=
  honest_iff_declared parse_wrapped

end SafeTensors

end InferenceEngine
