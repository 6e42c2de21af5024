import InferenceEngine.Library.Dict
import InferenceEngine.Model.ParserSoundness

/-!
# Files of tensors

A file that holds tensors one after another, under a header that says where each of them is, is read back: `parse`
accepts it, in whatever order the header lists them, and every tensor has the shape and the numbers it was stored
with. A file that was cut off is rejected.
-/

namespace InferenceEngine

def DType.name : DType → String
  | .F32 => "F32"
  | .F16 => "F16"
  | .BF16 => "BF16"

@[simp] theorem dtypeFromString_name (dtype : DType) : dtypeFromString dtype.name = .ok dtype := by
  cases dtype <;> rfl

/-- The bits of a stored element, as the `float` they are loaded as. -/
def DType.load : (dtype : DType) → BitVec (8 * dtypeSize dtype) → BitVec 32
  | .F32, bits => bits
  | .F16, bits => f16ToF32 bits
  | .BF16, bits => bf16ToF32 bits

/-- Loading an element does not change the number. -/
theorem DType.decode_load (dtype : DType) (bits : BitVec (8 * dtypeSize dtype)) :
    BinaryFormat.binary32.decode (dtype.load bits).toNat = dtype.format.decode bits.toNat := by
  cases dtype with
  | F32 => rfl
  | F16 => exact decode_f16ToF32 bits
  | BF16 => exact decode_bf16ToF32 bits

/-- A tensor as it is stored. Like a `Tensor` it has as many elements as its shape says. -/
structure StoredTensor where
  name : String
  dtype : DType
  shape : List (BitVec 64)
  elements : List (BitVec (8 * dtypeSize dtype))
  name_ne : name ≠ "__metadata__"
  nonneg : ∀ d ∈ shape, 0 ≤ d.toInt
  size_eq : (numElements shape).toNat = elements.length

namespace SafeTensors

def contains (st : SafeTensors) (name : String) : Bool := (st.tensors.lookup name).isSome

def get (st : SafeTensors) (name : String) : Except Error Tensor :=
  match st.tensors.lookup name with
  | some tensor => .ok tensor
  | none => .error (.runtimeError ("safetensors: missing tensor '" ++ name ++ "'"))

/-- `n` bytes of a number, low byte first. -/
def toBytes (x n : Nat) : List UInt8 := (List.range n).map fun i => UInt8.ofNat (x >>> (8 * i) &&& 0xFF)

/-- `st_buf`: the header length, the header and the bytes of the tensors. -/
def stBuf (header payload : List UInt8) : List UInt8 := toBytes header.length 8 ++ header ++ payload

end SafeTensors

namespace StoredTensor

open SafeTensors

variable (s : StoredTensor)

def bytes : List UInt8 := s.elements.flatMap fun bits => toBytes bits.toNat (dtypeSize s.dtype)

/-- A header entry of the tensor when its bytes start at `first`. Its keys may come in any order, among others. -/
structure Describes (entry : Json) (first : Nat) : Prop where
  dtype : entry.atKey "dtype" = .ok (.string s.dtype.name)
  shape : entry.atKey "shape" = .ok (.array (s.shape.map fun d => .number d.toInt))
  offsets : entry.atKey "data_offsets" = .ok (.array [.number first, .number (first + s.bytes.length)])

/-- The layout that the entry declares. -/
def layout (first : Nat) : Layout := ⟨s.dtype, s.shape, first, first + s.bytes.length⟩

/-- The tensor it is loaded as. -/
def tensor : Tensor :=
  ⟨s.shape, s.elements.map s.dtype.load, by rw [List.length_map]; exact s.size_eq⟩

/-- Tensors one after another, each with its first byte. -/
def place : Nat → List StoredTensor → List (Nat × StoredTensor)
  | _, [] => []
  | first, s :: stored => (first, s) :: place (first + s.bytes.length) stored

def payload (stored : List StoredTensor) : List UInt8 := stored.flatMap bytes

/-- A header entry under the name of a placed tensor. -/
def EntryOf (item : String × Json) (p : Nat × StoredTensor) : Prop := item.1 = p.2.name ∧ p.2.Describes item.2 p.1

end StoredTensor

namespace SafeTensors

open StoredTensor

/-! ### Bytes in a buffer -/

def HasBytes (data : List UInt8) (p : Nat) (bytes : List UInt8) : Prop :=
  ∀ k < bytes.length, byteAt data (p + k) = byteAt bytes k

variable {data a b : List UInt8} {p : Nat}

theorem hasBytes_append (h : HasBytes data p (a ++ b)) :
    HasBytes data p a ∧ HasBytes data (p + a.length) b := by
  constructor
  · intro k hk
    rw [h k (by rw [List.length_append]; omega), byteAt, byteAt, List.getD_append _ _ _ _ hk]
  · intro k hk
    rw [Nat.add_assoc, h (a.length + k) (by rw [List.length_append]; omega), byteAt, byteAt,
      List.getD_append_right _ _ _ _ (Nat.le_add_right _ _), Nat.add_sub_cancel_left]

theorem hasBytes_self (a : List UInt8) : HasBytes a 0 a := by
  intro k _
  rw [Nat.zero_add]

theorem length_toBytes (x n : Nat) : (toBytes x n).length = n := by
  rw [toBytes, List.length_map, List.length_range]

theorem byteAt_toBytes {x n k : Nat} (hk : k < n) : byteAt (toBytes x n) k = x / 2 ^ (8 * k) % 2 ^ 8 := by
  have hlen : k < (toBytes x n).length := by rwa [length_toBytes]
  have hmask : x >>> (8 * k) &&& 0xFF = x / 2 ^ (8 * k) % 2 ^ 8 := by
    rw [Nat.shiftRight_eq_div_pow]
    exact Nat.and_two_pow_sub_one_eq_mod _ 8
  have hbyte : (toBytes x n)[k] = UInt8.ofNat (x / 2 ^ (8 * k) % 2 ^ 8) := by
    rw [← hmask]
    simp only [toBytes, List.getElem_map, List.getElem_range]
  rw [byteAt, List.getD_eq_getElem _ _ hlen, hbyte, UInt8.toNat_ofNat']
  exact Nat.mod_eq_of_lt (Nat.mod_lt _ (by decide))

theorem littleEndian_toBytes {x n : Nat} (h : HasBytes data p (toBytes x n)) :
    littleEndian data p n = x % 2 ^ (8 * n) := by
  have hbyte : ∀ k < n, byteAt data (p + k) = x / 2 ^ (8 * k) % 2 ^ 8 := by
    intro k hk
    rw [h k (by rwa [length_toBytes]), byteAt_toBytes hk]
  clear h
  induction n with
  | zero => rw [littleEndian, Nat.mul_zero, pow_zero, Nat.mod_one]
  | succ n ih =>
    rw [littleEndian, ih fun k hk => hbyte k (Nat.lt_succ_of_lt hk), hbyte n (Nat.lt_succ_self n), Nat.mul_succ,
      pow_add, Nat.mod_mul, Nat.mul_comm (_ % 2 ^ 8)]

/-! ### Elements -/

theorem readElements_succ (dtype : DType) (data : List UInt8) (p n : Nat) :
    readElements dtype data p (n + 1) =
      readElements dtype data p 1 ++ readElements dtype data (p + dtypeSize dtype) n := by
  have hshift : ∀ i, p + dtypeSize dtype * (i + 1) = p + dtypeSize dtype + dtypeSize dtype * i := by
    intro i
    rw [Nat.mul_succ]
    omega
  rw [readElements, List.range_succ_eq_map, List.map_cons, List.map_map]
  refine congrArg (_ :: ·) (List.map_congr_left ?_)
  intro i _
  cases dtype with
  | F32 => exact congrArg (littleEndianU32 data) (hshift i)
  | F16 => exact congrArg (fun q => f16ToF32 (littleEndianU16 data q)) (hshift i)
  | BF16 => exact congrArg (fun q => bf16ToF32 (littleEndianU16 data q)) (hshift i)

theorem readElements_one {dtype : DType} {bits : BitVec (8 * dtypeSize dtype)}
    (h : HasBytes data p (toBytes bits.toNat (dtypeSize dtype))) :
    readElements dtype data p 1 = [dtype.load bits] := by
  have hword : littleEndian data p (dtypeSize dtype) = bits.toNat := by
    rw [littleEndian_toBytes h, Nat.mod_eq_of_lt bits.isLt]
  cases dtype with
  | F32 =>
    have hbits : littleEndianU32 data p = bits := BitVec.eq_of_toNat_eq (by rw [toNat_littleEndianU32]; exact hword)
    exact congrArg (fun x => [x]) hbits
  | F16 =>
    have hbits : littleEndianU16 data p = bits := BitVec.eq_of_toNat_eq (by rw [toNat_littleEndianU16]; exact hword)
    exact congrArg (fun x => [f16ToF32 x]) hbits
  | BF16 =>
    have hbits : littleEndianU16 data p = bits := BitVec.eq_of_toNat_eq (by rw [toNat_littleEndianU16]; exact hword)
    exact congrArg (fun x => [bf16ToF32 x]) hbits

theorem readElements_of_bytes {dtype : DType} {elements : List (BitVec (8 * dtypeSize dtype))}
    (h : HasBytes data p (elements.flatMap fun bits => toBytes bits.toNat (dtypeSize dtype))) :
    readElements dtype data p elements.length = elements.map dtype.load := by
  induction elements generalizing p with
  | nil => rfl
  | cons bits elements ih =>
    rw [List.flatMap_cons] at h
    obtain ⟨hfirst, hrest⟩ := hasBytes_append h
    rw [length_toBytes] at hrest
    rw [List.length_cons, readElements_succ, readElements_one hfirst, ih hrest, List.map_cons, List.singleton_append]

/-! ### Tensors in a row -/

theorem length_bytes (s : StoredTensor) : s.bytes.length = dtypeSize s.dtype * s.elements.length := by
  rw [StoredTensor.bytes]
  induction s.elements with
  | nil => rfl
  | cons bits elements ih =>
    rw [List.flatMap_cons, List.length_append, length_toBytes, ih, List.length_cons, Nat.mul_succ, Nat.add_comm]

theorem map_snd_place (first : Nat) (stored : List StoredTensor) : (place first stored).map Prod.snd = stored := by
  induction stored generalizing first with
  | nil => rfl
  | cons s stored ih => rw [place, List.map_cons, ih]

theorem le_of_mem_place {stored : List StoredTensor} {first : Nat} {placed : Nat × StoredTensor}
    (hmem : placed ∈ place first stored) : first ≤ placed.1 := by
  induction stored generalizing first with
  | nil => exact absurd hmem List.not_mem_nil
  | cons s stored ih =>
    obtain rfl | hmem := List.mem_cons.mp hmem
    · exact le_rfl
    · exact (Nat.le_add_right _ _).trans (ih hmem)

theorem hasBytes_of_mem_place {stored : List StoredTensor} {base first : Nat} {placed : Nat × StoredTensor}
    (h : HasBytes data (base + first) (payload stored)) (hmem : placed ∈ place first stored) :
    HasBytes data (base + placed.1) placed.2.bytes ∧
      placed.1 + placed.2.bytes.length ≤ first + (payload stored).length := by
  induction stored generalizing first with
  | nil => exact absurd hmem List.not_mem_nil
  | cons s stored ih =>
    rw [payload, List.flatMap_cons] at h
    obtain ⟨hself, hrest⟩ := hasBytes_append h
    rw [payload, List.flatMap_cons, List.length_append]
    obtain rfl | hmem := List.mem_cons.mp hmem
    · exact ⟨hself, by dsimp only; omega⟩
    · rw [Nat.add_assoc] at hrest
      obtain ⟨hbytes, hlast⟩ := ih hrest hmem
      rw [payload] at hlast
      exact ⟨hbytes, by omega⟩

theorem pairwise_place (first : Nat) (stored : List StoredTensor) :
    (place first stored).Pairwise fun a b => a.1 + a.2.bytes.length ≤ b.1 := by
  induction stored generalizing first with
  | nil => exact .nil
  | cons s stored ih => exact List.pairwise_cons.mpr ⟨fun placed hmem => le_of_mem_place hmem, ih _⟩

theorem exists_last {stored : List StoredTensor} (hne : payload stored ≠ []) (first : Nat) :
    ∃ placed ∈ place first stored, placed.1 + placed.2.bytes.length = first + (payload stored).length := by
  induction stored generalizing first with
  | nil => exact absurd rfl hne
  | cons s stored ih =>
    rw [payload, List.flatMap_cons, List.length_append]
    by_cases hrest : payload stored = []
    · refine ⟨(first, s), List.mem_cons_self, ?_⟩
      rw [payload] at hrest
      rw [hrest, List.length_nil, Nat.add_zero]
    · obtain ⟨placed, hmem, hlast⟩ := ih hrest (first + s.bytes.length)
      refine ⟨placed, List.mem_cons_of_mem _ hmem, ?_⟩
      rw [hlast, payload, Nat.add_assoc]

/-! ### Header entries -/

theorem mapM_getInt64 (shape : List (BitVec 64)) :
    (shape.map fun d => Json.number d.toInt).mapM Json.getInt64 = .ok shape := by
  induction shape with
  | nil => rfl
  | cons d shape ih =>
    rw [List.map_cons, List.mapM_cons, ih, Json.getInt64, BitVec.ofInt_toInt]
    rfl

theorem toNat_ofInt_natCast {n : Nat} (h : n < 2 ^ 64) : (BitVec.ofInt 64 (n : Int)).toNat = n := by
  rw [BitVec.toNat_ofInt]
  omega

/-- The entry of a tensor that lies in the data region is accepted. -/
theorem entryLayout_entry {region first : Nat} {s : StoredTensor} {entry : Json} (h : s.Describes entry first)
    (hlast : first + s.bytes.length ≤ region) (hregion : region < 2 ^ 64) :
    entryLayout region s.name entry = .ok (s.layout first) := by
  have hfirst64 : (BitVec.ofInt 64 (first : Int)).toNat = first := toNat_ofInt_natCast (by omega)
  have hlast64 : (BitVec.ofInt 64 ((first : Int) + (s.bytes.length : Int))).toNat = first + s.bytes.length := by
    rw [← Nat.cast_add]
    exact toNat_ofInt_natCast (by omega)
  have hdtype : (do (← entry.atKey "dtype").getString) = .ok s.dtype.name := by
    rw [h.dtype]
    rfl
  have hshape : entryShape entry = .ok s.shape := by
    rw [entryShape, h.shape]
    exact mapM_getInt64 s.shape
  have hneg : ¬(s.shape.any fun d => decide (d.toInt < 0)) = true := by
    rw [List.any_eq_true]
    intro h
    obtain ⟨d, hd, hlt⟩ := h
    exact absurd (s.nonneg d hd) (not_le.mpr (of_decide_eq_true hlt))
  have hsize : (first + s.bytes.length - first) / dtypeSize s.dtype = (numElements s.shape).toNat := by
    rw [Nat.add_sub_cancel_left, length_bytes, s.size_eq, Nat.mul_div_cancel_left]
    cases s.dtype <;> decide
  have hmod : (first + s.bytes.length - first) % dtypeSize s.dtype = 0 := by
    rw [Nat.add_sub_cancel_left, length_bytes, Nat.mul_mod_right]
  have hrange : ¬(first + s.bytes.length < first ∨ region < first + s.bytes.length) := by omega
  have hcount : ¬((first + s.bytes.length - first) % dtypeSize s.dtype ≠ 0 ∨
      (first + s.bytes.length - first) / dtypeSize s.dtype ≠ (numElements s.shape).toNat) := by
    rw [hmod, hsize]
    exact fun h => h.elim (fun h => h rfl) (fun h => h rfl)
  rw [entryLayout, hdtype]
  simp only [malformed, ok_bind, dtypeFromString_name, hshape, h.offsets, Json.atIndex, Json.getInt64,
    List.getElem?_cons_zero, List.getElem?_cons_succ, hfirst64, hlast64, if_neg hrange, if_neg hneg, if_neg hcount]
  rfl

/-! ### The loop over the entries -/

theorem parseEntries_tensors {base region : Nat} (items : List (String × Json)) (tensors : List (String × Tensor))
    (spans : List (Nat × Nat)) : parseEntries data base region items tensors spans =
      parseEntries data base region (items.filter fun item => item.1 ≠ "__metadata__") tensors spans := by
  induction items generalizing tensors spans with
  | nil => rfl
  | cons item items ih =>
    obtain ⟨name, entry⟩ := item
    by_cases hmeta : name = "__metadata__"
    · rw [parseEntries, if_pos hmeta, List.filter_cons_of_neg (by simpa using hmeta), ih]
    rw [List.filter_cons_of_pos (by simpa using hmeta)]
    cases hentry : parseEntry data base region name entry with
    | error e => rw [parseEntries_of_error hmeta hentry, parseEntries_of_error hmeta hentry]
    | ok found =>
      by_cases hmem : name ∈ tensors.map Prod.fst
      · rw [parseEntries_of_mem hmeta hentry hmem, parseEntries_of_mem hmeta hentry hmem]
      · rw [parseEntries_of_ok hmeta hentry hmem, parseEntries_of_ok hmeta hentry hmem, ih]

theorem parseEntry_entry {base region first : Nat} {s : StoredTensor} {entry : Json} (h : s.Describes entry first)
    (hlast : first + s.bytes.length ≤ region) (hregion : region < 2 ^ 64)
    (hbytes : HasBytes data (base + first) s.bytes) :
    parseEntry data base region s.name entry = .ok (s.tensor, first, first + s.bytes.length) := by
  have hread : (s.layout first).read data base = .ok s.tensor := by
    have helements : readElements s.dtype data (base + first) s.elements.length = s.elements.map s.dtype.load :=
      readElements_of_bytes hbytes
    obtain ⟨t, ht, hshape, hdata⟩ := (s.layout first).read_eq_ok data base
    rw [ht]
    obtain ⟨shape, elements, hsize⟩ := t
    dsimp only [layout] at hshape hdata
    rw [s.size_eq, helements] at hdata
    subst hshape hdata
    rfl
  exact parseEntry_of_layout (entryLayout_entry h hlast hregion) hread

/-- The loop over the entries of tensors that are all in the buffer. -/
theorem parseEntries_headerEntry {base region : Nat} {items : List (String × Json)}
    {order : List (Nat × StoredTensor)} {tensors : List (String × Tensor)} {spans : List (Nat × Nat)}
    (h : List.Forall₂ EntryOf items order) (hregion : region < 2 ^ 64)
    (hplaced : ∀ p ∈ order, HasBytes data (base + p.1) p.2.bytes ∧ p.1 + p.2.bytes.length ≤ region)
    (hnames : (tensors.map Prod.fst ++ order.map fun p => p.2.name).Nodup) :
    parseEntries data base region items tensors spans =
      .ok (tensors ++ order.map (fun p => (p.2.name, p.2.tensor)),
        spans ++ order.map fun p => (p.1, p.1 + p.2.bytes.length)) := by
  induction h generalizing tensors spans with
  | nil => rw [List.map_nil, List.map_nil, List.append_nil, List.append_nil, parseEntries]
  | @cons item p items order hitem _ ih =>
    obtain ⟨name, entry⟩ := item
    obtain ⟨rfl, hdescribes⟩ := hitem
    obtain ⟨⟨hbytes, hlast⟩, hrest⟩ := List.forall_mem_cons.mp hplaced
    have hmem : p.2.name ∉ tensors.map Prod.fst := by
      intro hmem
      exact (List.nodup_append.mp hnames).2.2 _ hmem _ List.mem_cons_self rfl
    have hentry := parseEntry_entry hdescribes hlast hregion hbytes
    have hnames' : ((tensors ++ [(p.2.name, p.2.tensor)]).map Prod.fst ++ order.map fun p => p.2.name).Nodup := by
      rw [List.map_append, List.append_assoc]
      exact hnames
    rw [parseEntries_of_ok p.2.name_ne hentry hmem, ih hrest hnames', List.append_assoc, List.append_assoc]
    rfl

/-! ### Ranges that are apart -/

/-- Neighbours in a list are related when every element is to all later ones. -/
theorem of_mem_zip_tail {A : Type} {R : A → A → Prop} {l : List A} (h : l.Pairwise R) {pair : A × A}
    (hmem : pair ∈ l.zip l.tail) : R pair.1 pair.2 := by
  induction l with
  | nil => exact absurd hmem List.not_mem_nil
  | cons x l ih =>
    cases l with
    | nil => exact absurd hmem List.not_mem_nil
    | cons y l =>
      obtain ⟨hfirst, hrest⟩ := List.pairwise_cons.mp h
      obtain rfl | hmem := List.mem_cons.mp hmem
      · exact hfirst y List.mem_cons_self
      · exact ih hrest hmem

/-- Byte ranges that are apart pass the check, in whatever order they come. -/
theorem not_overlapping {spans : List (Nat × Nat)} (hordered : ∀ s ∈ spans, s.1 ≤ s.2)
    (hapart : spans.Pairwise fun a b => a.2 ≤ b.1 ∨ b.2 ≤ a.1) : ¬overlapping spans = true := by
  let le : Nat × Nat → Nat × Nat → Bool := fun a b => a.1 < b.1 || (a.1 == b.1 && a.2 ≤ b.2)
  have hle : ∀ {a b : Nat × Nat}, le a b = true ↔ a.1 < b.1 ∨ a.1 = b.1 ∧ a.2 ≤ b.2 := by
    intro a b
    show (decide (a.1 < b.1) || (a.1 == b.1 && decide (a.2 ≤ b.2))) = true ↔ _
    rw [Bool.or_eq_true, Bool.and_eq_true, decide_eq_true_iff, decide_eq_true_iff, beq_iff_eq]
  have hsorted : (spans.mergeSort le).Pairwise fun a b => le a b = true := by
    apply List.pairwise_mergeSort
    · intro a b c hab hbc
      rw [hle] at hab hbc ⊢
      omega
    · intro a b
      rw [Bool.or_eq_true, hle, hle]
      omega
  have hperm : (spans.mergeSort le).Perm spans := List.mergeSort_perm spans le
  have hapart' : (spans.mergeSort le).Pairwise fun a b => a.2 ≤ b.1 ∨ b.2 ≤ a.1 :=
    (hperm.pairwise_iff fun h => h.symm).mpr hapart
  rw [overlapping, List.any_eq_true]
  intro h
  obtain ⟨pair, hmem, hlt⟩ := h
  have hlt : pair.2.1 < pair.1.2 := of_decide_eq_true hlt
  obtain ⟨hfirst, hsecond⟩ := List.of_mem_zip (show (pair.1, pair.2) ∈ _ from hmem)
  have ha := hordered _ (hperm.mem_iff.mp hfirst)
  have hb := hordered _ (hperm.mem_iff.mp (List.mem_of_mem_tail hsecond))
  have hab := hle.mp (of_mem_zip_tail hsorted hmem)
  obtain hab' | hab' := of_mem_zip_tail hapart' hmem
  · omega
  · omega

/-! ### Reading a file back -/

/-- The header lists the tensors of the payload, in any order; it may have metadata besides. -/
structure Lists (header : Json) (stored : List StoredTensor) : Prop where
  names : (stored.map StoredTensor.name).Nodup
  entries : ∃ order : List (Nat × StoredTensor), order.Perm (place 0 stored) ∧
    List.Forall₂ EntryOf (tensorEntries header) order

theorem lookup_of_mem {A : Type} {entries : List (String × A)} (hnodup : (entries.map Prod.fst).Nodup) {e : String × A}
    (he : e ∈ entries) : entries.lookup e.1 = some e.2 := by
  induction entries with
  | nil => exact absurd he List.not_mem_nil
  | cons x entries ih =>
    rw [List.map_cons, List.nodup_cons] at hnodup
    obtain rfl | he := List.mem_cons.mp he
    · exact List.lookup_cons_self
    · have hne : e.1 ≠ x.1 := fun heq => hnodup.1 (heq ▸ List.mem_map_of_mem he)
      rw [Dict.lookup_cons_of_ne hne]
      exact ih hnodup.2 he

def smallStored : List StoredTensor :=
  [⟨"a", .F32, [2#64, 2#64], [0x3F800000#32, 0x40000000#32, 0x40400000#32, 0x40800000#32], by decide, by simp, rfl⟩,
    ⟨"b", .BF16, [2#64], [0x3F80#16, 0x4000#16], by decide, by simp, rfl⟩]

/-- The header of the file in the tests. -/
def smallText : List UInt8 :=
  ("\x7b\"a\":\x7b\"dtype\":\"F32\",\"shape\":[2,2],\"data_offsets\":[0,16]\x7d," ++
    "\"b\":\x7b\"dtype\":\"BF16\",\"shape\":[2],\"data_offsets\":[16,20]\x7d\x7d").toUTF8.toList

/-- The value of the header, whose keys the JSON library has sorted. -/
def smallHeader : Json :=
  .object [("a", .object [("data_offsets", .array [.number 0, .number 16]), ("dtype", .string "F32"),
      ("shape", .array [.number 2, .number 2])]),
    ("b", .object [("data_offsets", .array [.number 16, .number 20]), ("dtype", .string "BF16"),
      ("shape", .array [.number 2])])]

def parseSmall (text : List UInt8) : Except String Json :=
  if text = smallText then .ok smallHeader else .error "[json.exception.parse_error.101] parse error"

theorem parseSmall_smallText : parseSmall smallText = .ok smallHeader := if_pos rfl

theorem lists_smallHeader : Lists smallHeader smallStored where
  names := by decide
  entries := ⟨place 0 smallStored, .refl _,
    .cons ⟨rfl, rfl, rfl, rfl⟩ (.cons ⟨rfl, rfl, rfl, rfl⟩ .nil)⟩

theorem length_small : (stBuf smallText (payload smallStored)).length < 2 ^ 64 := by decide +kernel

section File

variable {parseJson : List UInt8 → Except String Json} {text : List UInt8} {header : Json} {stored : List StoredTensor}

theorem length_stBuf (text bytes : List UInt8) : (stBuf text bytes).length = 8 + text.length + bytes.length := by
  rw [stBuf, List.length_append, List.length_append, length_toBytes]

theorem hasBytes_stBuf (text bytes : List UInt8) : HasBytes (stBuf text bytes) 0 (toBytes text.length 8) ∧
    HasBytes (stBuf text bytes) (8 + text.length) bytes := by
  obtain ⟨hfront, hbytes⟩ := hasBytes_append (hasBytes_self (stBuf text bytes))
  obtain ⟨hlength, -⟩ := hasBytes_append hfront
  rw [List.length_append, length_toBytes, Nat.zero_add] at hbytes
  exact ⟨hlength, hbytes⟩

theorem toNat_headerLength_of_bytes {n : Nat} (h : HasBytes data 0 (toBytes n 8)) (hn : n < 2 ^ 64) :
    (headerLength data).toNat = n := by
  rw [toNat_headerLength, littleEndian_toBytes h]
  exact Nat.mod_eq_of_lt hn

theorem parseHeader_stBuf (hjson : parseJson text = .ok header) (htext : text.length < 2 ^ 64) (bytes : List UInt8) :
    parseHeader parseJson (stBuf text bytes) = .ok header := by
  have hdrop : ((stBuf text bytes).drop 8).take text.length = text := by
    rw [stBuf, List.append_assoc, List.drop_left' (length_toBytes _ _), List.take_left' rfl]
  rw [parseHeader, toNat_headerLength_of_bytes (hasBytes_stBuf text bytes).1 htext, hdrop, hjson, length_stBuf,
    if_neg (by omega), if_neg (by omega)]

/-- **Round trip.** A file of tensors is accepted whatever the order of its header. Every tensor comes back under its
name, with its shape, and every element is the same number. -/
theorem parse_stBuf (hjson : parseJson text = .ok header) (hlists : Lists header stored)
    (hsize : (stBuf text (payload stored)).length < 2 ^ 64) :
    ∃ st, parse parseJson (stBuf text (payload stored)) = .ok st ∧ st.tensors.length = stored.length ∧
      (∀ name, st.contains name = true ↔ name ∈ stored.map StoredTensor.name) ∧
      ∀ s ∈ stored, st.get s.name = .ok s.tensor ∧ s.tensor.shape = s.shape ∧
        s.tensor.data.map (fun bits => BinaryFormat.binary32.decode bits.toNat) =
          s.elements.map fun bits => s.dtype.format.decode bits.toNat := by
  obtain ⟨order, horder, hentries⟩ := hlists.entries
  rw [length_stBuf] at hsize
  have hplaced : ∀ p ∈ order, HasBytes (stBuf text (payload stored)) (8 + text.length + p.1) p.2.bytes ∧
      p.1 + p.2.bytes.length ≤ (payload stored).length := by
    intro p hp
    have hpayload : HasBytes (stBuf text (payload stored)) (8 + text.length + 0) (payload stored) :=
      (hasBytes_stBuf text (payload stored)).2
    have hmem := hasBytes_of_mem_place hpayload (horder.mem_iff.mp hp)
    rwa [Nat.zero_add] at hmem
  have hstored : (order.map Prod.snd).Perm stored := by
    have hperm := horder.map Prod.snd
    rwa [map_snd_place] at hperm
  have hnames : (order.map fun p => p.2.name).Nodup := by
    have hperm := hstored.map StoredTensor.name
    rw [List.map_map] at hperm
    exact hperm.nodup_iff.mpr hlists.names
  have happart : ¬overlapping (order.map fun p => (p.1, p.1 + p.2.bytes.length)) = true := by
    apply not_overlapping
    · intro span hspan
      obtain ⟨p, -, rfl⟩ := List.mem_map.mp hspan
      exact Nat.le_add_right _ _
    · rw [List.pairwise_map]
      exact (horder.pairwise_iff fun h => h.symm).mpr ((pairwise_place 0 stored).imp Or.inl)
  let tensors := order.map fun p => (p.2.name, p.2.tensor)
  have hkeys : tensors.map Prod.fst = order.map fun p => p.2.name := by
    rw [List.map_map]
    rfl
  have hparse : parse parseJson (stBuf text (payload stored)) = .ok ⟨tensors⟩ := by
    have hloop : parseEntries (stBuf text (payload stored)) (8 + text.length) (payload stored).length
        (tensorEntries header) [] [] =
          .ok ([] ++ tensors, [] ++ order.map fun p => (p.1, p.1 + p.2.bytes.length)) :=
      parseEntries_headerEntry hentries (by omega) hplaced (by rwa [List.map_nil, List.nil_append])
    rw [List.nil_append, List.nil_append, tensorEntries, ← parseEntries_tensors] at hloop
    have hregion : 8 + text.length + (payload stored).length - 8 - text.length = (payload stored).length := by omega
    rw [parse, parseHeader_stBuf hjson (by omega), ok_bind,
      toNat_headerLength_of_bytes (hasBytes_stBuf text (payload stored)).1 (by omega), length_stBuf, hregion]
    dsimp only
    rw [hloop, ok_bind]
    dsimp only
    rw [if_neg happart]
    rfl
  refine ⟨⟨tensors⟩, hparse, ?_, ?_, ?_⟩
  · show tensors.length = stored.length
    rw [← hstored.length_eq, List.length_map, List.length_map]
  · intro name
    have hmem : name ∈ tensors.map Prod.fst ↔ name ∈ stored.map StoredTensor.name := by
      have hperm := hstored.map StoredTensor.name
      rw [List.map_map] at hperm
      rw [hkeys]
      exact hperm.mem_iff
    rw [← hmem, contains, List.lookup_isSome_iff, List.mem_map]
    exact exists_congr fun e => and_congr_right fun _ => by rw [beq_iff_eq, eq_comm]
  · intro s hs
    obtain ⟨p, hp, rfl⟩ := List.mem_map.mp (hstored.mem_iff.mpr hs)
    refine ⟨?_, rfl, ?_⟩
    · have hlookup : tensors.lookup p.2.name = some p.2.tensor :=
        lookup_of_mem (e := (p.2.name, p.2.tensor)) (hkeys ▸ hnames) (List.mem_map.mpr ⟨p, hp, rfl⟩)
      rw [get]
      dsimp only
      rw [hlookup]
    · show (p.2.elements.map p.2.dtype.load).map _ = _
      rw [List.map_map]
      exact List.map_congr_left fun bits _ => p.2.dtype.decode_load bits

theorem parse_stBuf_small : ∃ st, parse parseSmall (stBuf smallText (payload smallStored)) = .ok st ∧
    st.tensors.length = 2 ∧ st.contains "b" = true := by
  obtain ⟨st, hparse, hlength, hcontains, -⟩ := parse_stBuf parseSmall_smallText lists_smallHeader length_small
  exact ⟨st, hparse, hlength, (hcontains "b").mpr (by decide)⟩

/-! ### Files that are cut off -/

/-- The length of the header is in what is left of a file that is longer than it. -/
theorem littleEndian_take_stBuf (htext : text.length < 2 ^ 64) (bytes : List UInt8) {n : Nat} (hn : 8 ≤ n) :
    littleEndian ((stBuf text bytes).take n) 0 8 = text.length := by
  have hbytes : HasBytes ((stBuf text bytes).take n) 0 (toBytes text.length 8) := by
    intro k hk
    have hkept : 0 + k < n := by
      rw [length_toBytes] at hk
      omega
    rw [← (hasBytes_stBuf text bytes).1 k hk, byteAt, byteAt, List.getD_eq_getElem?_getD, List.getD_eq_getElem?_getD,
      List.getElem?_take_of_lt hkept]
  rw [littleEndian_toBytes hbytes]
  exact Nat.mod_eq_of_lt htext

theorem take_stBuf (text bytes : List UInt8) {n : Nat} (hn : 8 + text.length ≤ n) :
    (stBuf text bytes).take n = stBuf text (bytes.take (n - (8 + text.length))) := by
  have hfront : (toBytes text.length 8 ++ text).length = 8 + text.length := by
    rw [List.length_append, length_toBytes]
  rw [stBuf, List.take_append, List.take_of_length_le (hfront.trans_le hn), hfront]
  rfl

theorem last_of_declares {s : StoredTensor} {first : Nat} {entry : Json} {l : Layout} (hs : s.Describes entry first)
    (h : Declares entry l) (hlast : first + s.bytes.length < 2 ^ 64) : l.last = first + s.bytes.length := by
  obtain ⟨offsets, begin, last, hoffsets, -, hend, -, hl⟩ := h.offsets
  obtain rfl : Json.array [.number first, .number (first + s.bytes.length)] = offsets :=
    Except.ok.inj (hs.offsets.symm.trans hoffsets)
  obtain rfl : BitVec.ofInt 64 ((first : Int) + (s.bytes.length : Int)) = last := Except.ok.inj hend
  rw [hl, ← Nat.cast_add]
  exact toNat_ofInt_natCast hlast

/-- Every entry of a header that gets through the loop declares a layout inside the data region. -/
theorem declares_of_parseEntries {base region : Nat} {tensors : List (String × Tensor)} {spans : List (Nat × Nat)}
    {entry : String × Json} (h : parseEntries data base region header.items [] [] = .ok (tensors, spans))
    (hmem : entry ∈ tensorEntries header) : ∃ l, Declares entry.2 l ∧ l.last ≤ region := by
  obtain ⟨added, layouts, -, -, -, hdecoded, -⟩ := parseEntries_sound h List.nodup_nil
  obtain ⟨i, hi, rfl⟩ := List.getElem_of_mem hmem
  have hfound := hdecoded.get hi (hdecoded.length_eq ▸ hi)
  exact ⟨_, hfound.declared, hfound.inside⟩

/-- **Cut-off files.** What is left of a file of tensors when bytes are missing at its end is rejected. -/
theorem parse_take (hjson : parseJson text = .ok header) (hlists : Lists header stored)
    (hsize : (stBuf text (payload stored)).length < 2 ^ 64) {n : Nat}
    (hn : n < (stBuf text (payload stored)).length) :
    ∃ message, parse parseJson ((stBuf text (payload stored)).take n) = .error (.runtimeError message) := by
  rw [length_stBuf] at hsize hn
  cases hparse : parse parseJson ((stBuf text (payload stored)).take n) with
  | error e =>
    obtain ⟨message, rfl⟩ := failsAtRuntime_parse parseJson _ e hparse
    exact ⟨message, rfl⟩
  | ok st =>
    exfalso
    have hlen : ((stBuf text (payload stored)).take n).length = n := by
      rw [List.length_take, length_stBuf, Nat.min_eq_left hn.le]
    simp only [parse, bind_eq_ok, throw_if_eq_ok] at hparse
    obtain ⟨found, hheader, ⟨tensors, spans⟩, hentries, -, -⟩ := hparse
    have hinside := (parseHeader_eq_ok hheader).1
    rw [hlen] at hinside
    -- all of the header is there
    have hlength := littleEndian_take_stBuf (n := n) (by omega : text.length < 2 ^ 64) (payload stored) (by omega)
    rw [hlength] at hinside
    rw [take_stBuf text _ hinside, parseHeader_stBuf hjson (by omega)] at hheader
    obtain rfl := Except.ok.inj hheader
    -- but not all of the tensor that ends with the payload
    have hne : payload stored ≠ [] := by
      intro hnil
      rw [hnil, List.length_nil] at hn
      omega
    obtain ⟨p, hp, hlast⟩ := exists_last hne 0
    obtain ⟨order, horder, hlisted⟩ := hlists.entries
    obtain ⟨i, hi, rfl⟩ := List.getElem_of_mem (horder.mem_iff.mpr hp)
    have hitems : i < (tensorEntries header).length := hlisted.length_eq ▸ hi
    have hitem : EntryOf (tensorEntries header)[i] order[i] := hlisted.get hitems hi
    obtain ⟨l, hdeclares, hregion⟩ := declares_of_parseEntries hentries (List.getElem_mem hitems)
    rw [last_of_declares hitem.2 hdeclares (by omega), toNat_headerLength, hlength, hlen, hlast] at hregion
    omega

theorem parse_take_small :
    ∃ message, parse parseSmall ((stBuf smallText (payload smallStored)).take 20) = .error (.runtimeError message) :=
  parse_take parseSmall_smallText lists_smallHeader length_small (by decide +kernel)

end File

end SafeTensors

end InferenceEngine
