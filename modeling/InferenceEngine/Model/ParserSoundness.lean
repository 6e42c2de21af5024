import InferenceEngine.Model.Shapes
import InferenceEngine.Model.Formats
import Mathlib.Data.List.Nodup

/-!
# Safety and soundness of the parser

`SafeTensors::parse` checks every entry of the header before it reads a byte of its tensor, so it splits
into the layouts that the header alone decides and the reads they call for. What the module shows of it, for
every buffer: the reads stay inside the buffer and nothing else of the buffer matters; a failure is a
`std::runtime_error`; a success has one tensor for every entry, decoded from the bytes of the entry's span,
and the spans are disjoint.
-/

namespace InferenceEngine

open BinaryFormat

/-- The format of a stored element. -/
def DType.format : DType → BinaryFormat
  | .F32 => binary32
  | .F16 => binary16
  | .BF16 => bfloat16

namespace SafeTensors

/-! ### Little-endian numbers -/

/-- The number that `n` bytes from byte `p` on stand for, low byte first. -/
def littleEndian (data : List UInt8) (p : Nat) : Nat → Nat
  | 0 => 0
  | n + 1 => littleEndian data p n + byteAt data (p + n) * 2 ^ (8 * n)

theorem byteAt_lt (data : List UInt8) (i : Nat) : byteAt data i < 2 ^ 8 := UInt8.toNat_lt _

theorem littleEndian_lt (data : List UInt8) (p n : Nat) : littleEndian data p n < 2 ^ (8 * n) := by
  induction n with
  | zero => exact Nat.one_pos
  | succ n ih =>
    have hbyte := Nat.mul_le_mul_right (2 ^ (8 * n)) (Nat.le_sub_one_of_lt (byteAt_lt data (p + n)))
    have hpow : 2 ^ (8 * (n + 1)) = 2 ^ 8 * 2 ^ (8 * n) := by rw [← pow_add, Nat.mul_succ, Nat.add_comm]
    rw [littleEndian, hpow]
    omega

theorem foldl_or_eq_littleEndian {w : Nat} (data : List UInt8) (p n : Nat) (h : 8 * n ≤ w) :
    ((List.range n).foldl (fun bits i => bits ||| (BitVec.ofNat w (byteAt data (p + i)) <<< (8 * i)))
      0#w).toNat = littleEndian data p n := by
  induction n with
  | zero => simp [littleEndian]
  | succ n ih =>
    have hlow := littleEndian_lt data p n
    have hbyte := byteAt_lt data (p + n)
    have hfit : byteAt data (p + n) * 2 ^ (8 * n) < 2 ^ w := by
      calc byteAt data (p + n) * 2 ^ (8 * n) < 2 ^ 8 * 2 ^ (8 * n) :=
            Nat.mul_lt_mul_of_pos_right hbyte (Nat.two_pow_pos _)
        _ = 2 ^ (8 * (n + 1)) := by rw [← pow_add, Nat.mul_succ, Nat.add_comm]
        _ ≤ 2 ^ w := Nat.pow_le_pow_right Nat.two_pos h
    have hhigh : (BitVec.ofNat w (byteAt data (p + n)) <<< (8 * n)).toNat =
        byteAt data (p + n) <<< (8 * n) := by
      have hw : byteAt data (p + n) < 2 ^ w :=
        hbyte.trans_le (Nat.pow_le_pow_right Nat.two_pos (by omega))
      rw [BitVec.toNat_shiftLeft, BitVec.toNat_ofNat, Nat.mod_eq_of_lt hw, Nat.shiftLeft_eq,
        Nat.mod_eq_of_lt hfit]
    rw [List.range_succ, List.foldl_append, List.foldl_cons, List.foldl_nil, BitVec.toNat_or,
      ih (by omega), hhigh, Nat.or_comm, ← Nat.shiftLeft_add_eq_or_of_lt hlow, littleEndian,
      Nat.shiftLeft_eq, Nat.add_comm]

theorem toNat_headerLength (data : List UInt8) :
    (headerLength data).toNat = littleEndian data 0 8 := by
  have hfold := foldl_or_eq_littleEndian (w := 64) data 0 8 (by decide)
  simp only [Nat.zero_add] at hfold
  exact hfold

theorem toNat_littleEndianU32 (data : List UInt8) (p : Nat) :
    (littleEndianU32 data p).toNat = littleEndian data p 4 :=
  foldl_or_eq_littleEndian (w := 32) data p 4 (by decide)

theorem toNat_littleEndianU16 (data : List UInt8) (p : Nat) :
    (littleEndianU16 data p).toNat = littleEndian data p 2 := by
  simpa [List.range_succ, littleEndianU16] using
    foldl_or_eq_littleEndian (w := 16) data p 2 (by decide)

/-- An element is read with the value its bytes stand for in the storage format. -/
theorem decode_readElements {dtype : DType} {data : List UInt8} {p numel i : Nat}
    (h : i < (readElements dtype data p numel).length) :
    binary32.decode ((readElements dtype data p numel)[i]).toNat =
      dtype.format.decode (littleEndian data (p + dtypeSize dtype * i) (dtypeSize dtype)) := by
  simp only [readElements, List.getElem_map, List.getElem_range]
  cases dtype with
  | F32 => rw [toNat_littleEndianU32]; rfl
  | F16 => rw [decode_f16ToF32, toNat_littleEndianU16]; rfl
  | BF16 => rw [decode_bf16ToF32, toNat_littleEndianU16]; rfl

theorem length_readElements (dtype : DType) (data : List UInt8) (p numel : Nat) :
    (readElements dtype data p numel).length = numel := by
  rw [readElements, List.length_map, List.length_range]

/-! ### Layouts -/

/-- What the header says of one tensor: its format, its shape and its bytes in the data region. -/
structure Layout where
  dtype : DType
  shape : List (BitVec 64)
  first : Nat
  last : Nat

/-- The part of `parseEntry` before it reads a byte of the tensor. -/
def entryLayout (region : Nat) (name : String) (entry : Json) : Except Error Layout := do
  let dtype ← dtypeFromString (← malformed do (← entry.atKey "dtype").getString)
  let shape ← malformed (entryShape entry)
  let offsets ← malformed (entry.atKey "data_offsets")
  let first ← malformed do (← offsets.atIndex 0).getInt64
  let last ← malformed do (← offsets.atIndex 1).getInt64
  let first := first.toNat
  let last := last.toNat
  if last < first ∨ region < last then
    throw (.runtimeError ("safetensors: data_offsets out of range for " ++ name))
  if shape.any fun d => d.toInt < 0 then
    throw (.runtimeError ("safetensors: negative dimension for " ++ name))
  let numel := numElements shape
  let elemSize := dtypeSize dtype
  let nbytes := last - first
  if nbytes % elemSize ≠ 0 ∨ nbytes / elemSize ≠ numel.toNat then
    throw (.runtimeError ("safetensors: byte count does not match shape for " ++ name))
  return ⟨dtype, shape, first, last⟩

/-- The tensor of a layout. -/
def Layout.read (data : List UInt8) (base : Nat) (l : Layout) : Except Error Tensor :=
  Tensor.create l.shape (readElements l.dtype data (base + l.first) (numElements l.shape).toNat)

/-- `parseEntry` finds the layout from the header and then reads the tensor. -/
theorem parseEntry_eq (data : List UInt8) (base region : Nat) (name : String) (entry : Json) :
    parseEntry data base region name entry = (do
      let l ← entryLayout region name entry
      let tensor ← l.read data base
      return (tensor, l.first, l.last)) := by
  simp only [parseEntry, entryLayout, bind_assoc, Layout.read]
  repeat' (refine bind_congr fun _ => ?_)
  split
  · rfl
  split
  · rfl
  split
  · rfl
  rfl

/-- The header entry has the layout. -/
structure Declares (entry : Json) (l : Layout) : Prop where
  dtype : ∃ name, (do (← entry.atKey "dtype").getString) = .ok name ∧ dtypeFromString name = .ok l.dtype
  shape : entryShape entry = .ok l.shape
  offsets : ∃ offsets first last, entry.atKey "data_offsets" = .ok offsets ∧
    (do (← offsets.atIndex 0).getInt64) = .ok first ∧ (do (← offsets.atIndex 1).getInt64) = .ok last ∧
    l.first = first.toNat ∧ l.last = last.toNat

/-- An accepted layout is the one declared, and it fits the data region and the shape. -/
theorem entryLayout_eq_ok {region : Nat} {name : String} {entry : Json} {l : Layout}
    (h : entryLayout region name entry = .ok l) :
    Declares entry l ∧ l.first ≤ l.last ∧ l.last ≤ region ∧
      l.last - l.first = dtypeSize l.dtype * (numElements l.shape).toNat := by
  simp only [entryLayout, throw_if_eq_ok, bind_eq_ok, malformed_eq_ok] at h
  obtain ⟨text, htext, dtype, hdtype, shape, hshape, offsets, hoffsets, first, hfirst, last, hlast, hrange,
    -, hsize, hret⟩ := h
  obtain rfl := Except.ok.inj hret
  obtain ⟨hle, hregion⟩ := not_or.mp hrange
  obtain ⟨hmod, hdiv⟩ := not_or.mp hsize
  refine ⟨⟨⟨text, bind_eq_ok.mpr htext, hdtype⟩, hshape, offsets, first, last, hoffsets,
    bind_eq_ok.mpr hfirst, bind_eq_ok.mpr hlast, rfl, rfl⟩, not_lt.mp hle, not_lt.mp hregion, ?_⟩
  change last.toNat - first.toNat = dtypeSize dtype * (numElements shape).toNat
  rw [← not_not.mp hdiv, Nat.mul_div_cancel' (Nat.dvd_of_mod_eq_zero (not_not.mp hmod))]

/-- The layout's tensor can always be built: it has as many elements as its shape. -/
theorem Layout.read_eq_ok (data : List UInt8) (base : Nat) (l : Layout) :
    ∃ t, l.read data base = .ok t ∧ t.shape = l.shape ∧
      t.data = readElements l.dtype data (base + l.first) (numElements l.shape).toNat := by
  have hsize := length_readElements l.dtype data (base + l.first) (numElements l.shape).toNat
  rw [Layout.read, Tensor.create, dif_pos hsize.symm]
  exact ⟨_, rfl, rfl, rfl⟩

/-! ### Failures -/

/-- The computation fails with a `std::runtime_error` only. -/
def FailsAtRuntime {α : Type} (x : Except Error α) : Prop :=
  ∀ e, x = .error e → ∃ message, e = .runtimeError message

theorem FailsAtRuntime.ok {α : Type} (a : α) : FailsAtRuntime (.ok a) := by
  intro e h
  cases h

theorem FailsAtRuntime.throw {α : Type} (message : String) :
    FailsAtRuntime (.error (.runtimeError message) : Except Error α) := by
  intro e h
  cases h
  exact ⟨message, rfl⟩

theorem FailsAtRuntime.malformed {α : Type} (x : Except String α) :
    FailsAtRuntime (SafeTensors.malformed x) := by
  cases x with
  | ok a => exact .ok a
  | error what => exact .throw _

theorem FailsAtRuntime.bind {α β : Type} {x : Except Error α} {f : α → Except Error β}
    (hx : FailsAtRuntime x) (hf : ∀ a, x = .ok a → FailsAtRuntime (f a)) : FailsAtRuntime (x >>= f) := by
  cases x with
  | ok a => exact hf a rfl
  | error e =>
    intro e' h
    cases h
    exact hx e rfl

theorem FailsAtRuntime.guard {α : Type} {P : Prop} [Decidable P] {message : String}
    {x : Except Error α} {f : PUnit → Except Error α} (hx : FailsAtRuntime x) :
    FailsAtRuntime (if P then MonadExcept.throw (.runtimeError message) >>= f else x) := by
  by_cases h : P
  · rw [if_pos h]
    exact .throw _
  · rw [if_neg h]
    exact hx

theorem failsAtRuntime_dtypeFromString (name : String) : FailsAtRuntime (dtypeFromString name) := by
  rw [dtypeFromString]
  split
  · exact .ok _
  split
  · exact .ok _
  split
  · exact .ok _
  exact .throw _

theorem failsAtRuntime_entryLayout (region : Nat) (name : String) (entry : Json) :
    FailsAtRuntime (entryLayout region name entry) := by
  rw [entryLayout]
  apply FailsAtRuntime.bind (.malformed _)
  intro text _
  apply FailsAtRuntime.bind (failsAtRuntime_dtypeFromString text)
  intro dtype _
  apply FailsAtRuntime.bind (.malformed _)
  intro shape _
  apply FailsAtRuntime.bind (.malformed _)
  intro offsets _
  apply FailsAtRuntime.bind (.malformed _)
  intro first _
  apply FailsAtRuntime.bind (.malformed _)
  intro last _
  exact .guard (.guard (.guard (.ok _)))

theorem failsAtRuntime_parseEntry (data : List UInt8) (base region : Nat) (name : String) (entry : Json) :
    FailsAtRuntime (parseEntry data base region name entry) := by
  rw [parseEntry_eq]
  apply FailsAtRuntime.bind (failsAtRuntime_entryLayout region name entry)
  intro l _
  obtain ⟨t, hread, -, -⟩ := l.read_eq_ok data base
  rw [hread]
  exact .ok _

theorem failsAtRuntime_parseEntries (data : List UInt8) (base region : Nat) (items : List (String × Json))
    (tensors : List (String × Tensor)) (spans : List (Nat × Nat)) :
    FailsAtRuntime (parseEntries data base region items tensors spans) := by
  induction items generalizing tensors spans with
  | nil => exact .ok _
  | cons item items ih =>
    obtain ⟨name, entry⟩ := item
    by_cases hmeta : name = "__metadata__"
    · rw [parseEntries, if_pos hmeta]
      exact ih tensors spans
    · rw [parseEntries, if_neg hmeta]
      apply FailsAtRuntime.bind (failsAtRuntime_parseEntry data base region name entry)
      intro found _
      exact .guard (ih _ _)

theorem failsAtRuntime_parse (parseJson : List UInt8 → Except String Json) (data : List UInt8) :
    FailsAtRuntime (parse parseJson data) := by
  have hheader : FailsAtRuntime (parseHeader parseJson data) := by
    rw [parseHeader]
    split
    · exact .throw _
    split
    · exact .throw _
    split
    · exact .ok _
    · exact .throw _
  rw [parse]
  apply FailsAtRuntime.bind hheader
  intro header _
  apply FailsAtRuntime.bind (failsAtRuntime_parseEntries data _ _ header.items [] [])
  intro found _
  exact .guard (.ok _)

/-! ### Reads -/

/-- The positions of the bytes that the loop over the entries reads, in order. `names` are the tensors it
has; it stops at an entry without a layout, or with a name it has. -/
def entriesReads (base region : Nat) : List (String × Json) → List String → List Nat
  | [], _ => []
  | (name, entry) :: items, names =>
    if name = "__metadata__" then entriesReads base region items names
    else
      match entryLayout region name entry with
      | .error _ => []
      | .ok l => (List.range (l.last - l.first)).map (base + l.first + ·) ++
          if name ∈ names then [] else entriesReads base region items (names ++ [name])

/-- The positions of the bytes that `parse` reads, in order: those of the length, those of the header and
those of the tensors. -/
def parseReads (parseJson : List UInt8 → Except String Json) (data : List UInt8) : List Nat :=
  if data.length < 8 then []
  else List.range 8 ++
    if data.length - 8 < (headerLength data).toNat then []
    else (List.range (headerLength data).toNat).map (8 + ·) ++
      match parseJson ((data.drop 8).take (headerLength data).toNat) with
      | .error _ => []
      | .ok header => entriesReads (8 + (headerLength data).toNat)
          (data.length - 8 - (headerLength data).toNat) header.items []

theorem lt_of_mem_entriesReads {base region a : Nat} {items : List (String × Json)} {names : List String}
    (h : a ∈ entriesReads base region items names) : a < base + region := by
  induction items generalizing names with
  | nil => exact absurd h List.not_mem_nil
  | cons item items ih =>
    obtain ⟨name, entry⟩ := item
    rw [entriesReads] at h
    split at h
    · exact ih h
    cases hlayout : entryLayout region name entry with
    | error e => simp [hlayout] at h
    | ok l =>
      obtain ⟨-, hle, hregion, -⟩ := entryLayout_eq_ok hlayout
      simp only [hlayout, List.mem_append, List.mem_map, List.mem_range] at h
      obtain ⟨i, hi, rfl⟩ | h := h
      · omega
      split at h
      · exact absurd h List.not_mem_nil
      · exact ih h

theorem lt_of_mem_parseReads {parseJson : List UInt8 → Except String Json} {data : List UInt8} {a : Nat}
    (h : a ∈ parseReads parseJson data) : a < data.length := by
  rw [parseReads] at h
  split at h
  · exact absurd h List.not_mem_nil
  obtain h | h := List.mem_append.mp h
  · have := List.mem_range.mp h
    omega
  split at h
  · exact absurd h List.not_mem_nil
  obtain h | h := List.mem_append.mp h
  · obtain ⟨i, hi, rfl⟩ := List.mem_map.mp h
    have := List.mem_range.mp hi
    omega
  split at h
  · exact absurd h List.not_mem_nil
  · have := lt_of_mem_entriesReads h
    omega

/-! ### What is not read does not matter -/

section Locality

variable {data data' : List UInt8}

theorem littleEndian_congr {p n : Nat} (h : ∀ k < n, byteAt data (p + k) = byteAt data' (p + k)) :
    littleEndian data p n = littleEndian data' p n := by
  induction n with
  | zero => rfl
  | succ n ih => rw [littleEndian, littleEndian, h n (Nat.lt_succ_self n), ih fun k hk => h k (by omega)]

theorem littleEndianU16_congr {p : Nat} (h : littleEndian data p 2 = littleEndian data' p 2) :
    littleEndianU16 data p = littleEndianU16 data' p := by
  apply BitVec.eq_of_toNat_eq
  rw [toNat_littleEndianU16, toNat_littleEndianU16, h]

theorem littleEndianU32_congr {p : Nat} (h : littleEndian data p 4 = littleEndian data' p 4) :
    littleEndianU32 data p = littleEndianU32 data' p := by
  apply BitVec.eq_of_toNat_eq
  rw [toNat_littleEndianU32, toNat_littleEndianU32, h]

theorem headerLength_congr (h : ∀ a < 8, byteAt data a = byteAt data' a) :
    headerLength data = headerLength data' := by
  apply BitVec.eq_of_toNat_eq
  rw [toNat_headerLength, toNat_headerLength]
  apply littleEndian_congr
  intro k hk
  rw [Nat.zero_add]
  exact h k hk

theorem readElements_congr {dtype : DType} {p numel : Nat}
    (h : ∀ i < dtypeSize dtype * numel, byteAt data (p + i) = byteAt data' (p + i)) :
    readElements dtype data p numel = readElements dtype data' p numel := by
  apply List.map_congr_left
  intro i hi
  have hi := List.mem_range.mp hi
  have hword : littleEndian data (p + dtypeSize dtype * i) (dtypeSize dtype) =
      littleEndian data' (p + dtypeSize dtype * i) (dtypeSize dtype) := by
    apply littleEndian_congr
    intro k hk
    rw [Nat.add_assoc]
    apply h
    calc dtypeSize dtype * i + k < dtypeSize dtype * i + dtypeSize dtype := Nat.add_lt_add_left hk _
      _ = dtypeSize dtype * (i + 1) := (Nat.mul_succ _ _).symm
      _ ≤ dtypeSize dtype * numel := Nat.mul_le_mul_left _ hi
  cases dtype with
  | F32 => exact littleEndianU32_congr hword
  | F16 => exact congrArg f16ToF32 (littleEndianU16_congr hword)
  | BF16 => exact congrArg bf16ToF32 (littleEndianU16_congr hword)

theorem parseEntry_of_layout {base region : Nat} {name : String} {entry : Json} {l : Layout} {t : Tensor}
    (hlayout : entryLayout region name entry = .ok l) (hread : l.read data base = .ok t) :
    parseEntry data base region name entry = .ok (t, l.first, l.last) := by
  rw [parseEntry_eq, hlayout, ok_bind, hread, ok_bind]
  rfl

theorem Layout.read_congr {base region : Nat} {name : String} {entry : Json} {l : Layout}
    (hlayout : entryLayout region name entry = .ok l)
    (h : ∀ i < l.last - l.first, byteAt data (base + l.first + i) = byteAt data' (base + l.first + i)) :
    l.read data base = l.read data' base := by
  obtain ⟨-, -, -, hsize⟩ := entryLayout_eq_ok hlayout
  rw [Layout.read, Layout.read]
  refine congrArg _ (readElements_congr ?_)
  intro i hi
  exact h i (hsize ▸ hi)

section Steps

variable {base region : Nat} {name : String} {entry : Json} {items : List (String × Json)}
  {tensors : List (String × Tensor)} {spans : List (Nat × Nat)} (hmeta : name ≠ "__metadata__")

include hmeta

theorem parseEntries_of_error {e : Error} (h : parseEntry data base region name entry = .error e) :
    parseEntries data base region ((name, entry) :: items) tensors spans = .error e := by
  rw [parseEntries, if_neg hmeta, h, error_bind]

theorem parseEntries_of_mem {found : Tensor × Nat × Nat}
    (h : parseEntry data base region name entry = .ok found) (hmem : name ∈ tensors.map Prod.fst) :
    parseEntries data base region ((name, entry) :: items) tensors spans =
      .error (.runtimeError ("safetensors: duplicate tensor name '" ++ name ++ "'")) := by
  rw [parseEntries, if_neg hmeta, h, ok_bind]
  dsimp only
  rw [if_pos hmem, throw_bind]

theorem parseEntries_of_ok {found : Tensor × Nat × Nat}
    (h : parseEntry data base region name entry = .ok found) (hmem : name ∉ tensors.map Prod.fst) :
    parseEntries data base region ((name, entry) :: items) tensors spans =
      parseEntries data base region items (tensors ++ [(name, found.1)]) (spans ++ [found.2]) := by
  rw [parseEntries, if_neg hmeta, h, ok_bind]
  dsimp only
  rw [if_neg hmem]

end Steps

theorem parseEntries_congr {base region : Nat} {items : List (String × Json)}
    {tensors : List (String × Tensor)} {spans : List (Nat × Nat)}
    (h : ∀ a ∈ entriesReads base region items (tensors.map Prod.fst), byteAt data a = byteAt data' a) :
    parseEntries data base region items tensors spans =
      parseEntries data' base region items tensors spans := by
  induction items generalizing tensors spans with
  | nil => rfl
  | cons item items ih =>
    obtain ⟨name, entry⟩ := item
    by_cases hmeta : name = "__metadata__"
    · rw [entriesReads, if_pos hmeta] at h
      rw [parseEntries, if_pos hmeta, parseEntries, if_pos hmeta, ih h]
    rw [entriesReads, if_neg hmeta] at h
    cases hlayout : entryLayout region name entry with
    | error e =>
      have herror : ∀ buffer, parseEntry buffer base region name entry = .error e := by
        intro buffer
        rw [parseEntry_eq, hlayout, error_bind]
      rw [parseEntries_of_error hmeta (herror data), parseEntries_of_error hmeta (herror data')]
    | ok l =>
      simp only [hlayout] at h
      have hbytes : ∀ i < l.last - l.first,
          byteAt data (base + l.first + i) = byteAt data' (base + l.first + i) := by
        intro i hi
        exact h _ (List.mem_append_left _ (List.mem_map.mpr ⟨i, List.mem_range.mpr hi, rfl⟩))
      obtain ⟨t, ht, -, -⟩ := l.read_eq_ok data base
      have hentry := parseEntry_of_layout hlayout ht
      have hentry' := parseEntry_of_layout hlayout
        ((Layout.read_congr hlayout hbytes).symm.trans ht)
      by_cases hmem : name ∈ tensors.map Prod.fst
      · rw [parseEntries_of_mem hmeta hentry hmem, parseEntries_of_mem hmeta hentry' hmem]
      · rw [parseEntries_of_ok hmeta hentry hmem, parseEntries_of_ok hmeta hentry' hmem]
        apply ih
        intro a ha
        rw [if_neg hmem] at h
        rw [List.map_append] at ha
        exact h a (List.mem_append_right _ ha)

theorem getElem?_eq_of_byteAt_eq {i : Nat} (hlen : data'.length = data.length)
    (h : byteAt data i = byteAt data' i) : data[i]? = data'[i]? := by
  by_cases hi : i < data.length
  · have hi' : i < data'.length := hlen ▸ hi
    simp only [byteAt, List.getD_eq_getElem?_getD, List.getElem?_eq_getElem hi,
      List.getElem?_eq_getElem hi', Option.getD_some] at h ⊢
    exact congrArg some (UInt8.toNat_inj.mp h)
  · rw [List.getElem?_eq_none (not_lt.mp hi), List.getElem?_eq_none (hlen ▸ not_lt.mp hi)]

/-- A buffer of the same length with the same bytes where `parse` reads is parsed alike. -/
theorem parse_congr {parseJson : List UInt8 → Except String Json} (hlen : data'.length = data.length)
    (h : ∀ a ∈ parseReads parseJson data, byteAt data a = byteAt data' a) :
    parse parseJson data' = parse parseJson data := by
  rw [parse, parse, parseHeader, parseHeader, hlen]
  by_cases hshort : data.length < 8
  · rw [if_pos hshort, if_pos hshort, error_bind, error_bind]
  rw [parseReads, if_neg hshort] at h
  have hlength : headerLength data' = headerLength data := by
    refine (headerLength_congr fun a ha => ?_).symm
    exact h a (List.mem_append_left _ (List.mem_range.mpr ha))
  rw [if_neg hshort, if_neg hshort, hlength]
  by_cases hlong : data.length - 8 < (headerLength data).toNat
  · rw [if_pos hlong, if_pos hlong, error_bind, error_bind]
  simp only [if_neg hlong, List.mem_append, or_imp, forall_and] at h
  have htext : (data'.drop 8).take (headerLength data).toNat =
      (data.drop 8).take (headerLength data).toNat := by
    apply List.ext_getElem?
    intro i
    by_cases hi : i < (headerLength data).toNat
    · rw [List.getElem?_take_of_lt hi, List.getElem?_take_of_lt hi, List.getElem?_drop, List.getElem?_drop]
      refine (getElem?_eq_of_byteAt_eq hlen ?_).symm
      exact h.2.1 _ (List.mem_map.mpr ⟨i, List.mem_range.mpr hi, rfl⟩)
    · rw [List.getElem?_take_eq_none (not_lt.mp hi), List.getElem?_take_eq_none (not_lt.mp hi)]
  rw [if_neg hlong, if_neg hlong, htext]
  cases hjson : parseJson ((data.drop 8).take (headerLength data).toNat) with
  | error what => rw [error_bind, error_bind]
  | ok header =>
    have hitems := h.2.2
    simp only [hjson] at hitems
    have hentries : parseEntries data' _ _ header.items [] [] = parseEntries data _ _ header.items [] [] :=
      (parseEntries_congr hitems).symm
    rw [ok_bind, ok_bind]
    dsimp only
    rw [hentries]

end Locality

/-! ### Accepted buffers -/

def tensorEntries (header : Json) : List (String × Json) :=
  header.items.filter fun item => item.1 ≠ "__metadata__"

/-- The tensor that a header entry stands for, with its layout. -/
structure Decoded (data : List UInt8) (base region : Nat) (entry : String × Json)
    (tensor : String × Tensor) (l : Layout) : Prop where
  name : tensor.1 = entry.1
  declared : Declares entry.2 l
  shape : tensor.2.shape = l.shape
  ordered : l.first ≤ l.last
  inside : l.last ≤ region
  bytes : l.last - l.first = dtypeSize l.dtype * tensor.2.data.length
  elements : ∀ i (h : i < tensor.2.data.length), binary32.decode (tensor.2.data[i]).toNat =
    l.dtype.format.decode (littleEndian data (base + l.first + dtypeSize l.dtype * i) (dtypeSize l.dtype))

/-- The bytes of two layouts have no position in common. -/
def Layout.Apart (a b : Layout) : Prop := ∀ p, a.first ≤ p → p < a.last → ¬(b.first ≤ p ∧ p < b.last)

/-- One tensor for every entry of the header, each name once, and layouts apart from each other. -/
structure Sound (data : List UInt8) (base region : Nat) (header : Json)
    (tensors : List (String × Tensor)) (layouts : List Layout) : Prop where
  count : layouts.length = tensors.length
  decoded : List.Forall₂ (fun entry found => Decoded data base region entry found.1 found.2)
    (tensorEntries header) (tensors.zip layouts)
  names : (tensors.map Prod.fst).Nodup
  apart : layouts.Pairwise Layout.Apart

theorem decoded_of_layout {data : List UInt8} {base region : Nat} {name : String} {entry : Json}
    {l : Layout} {t : Tensor} (hlayout : entryLayout region name entry = .ok l)
    (hread : l.read data base = .ok t) : Decoded data base region (name, entry) (name, t) l := by
  obtain ⟨hdeclared, hle, hregion, hsize⟩ := entryLayout_eq_ok hlayout
  obtain ⟨t', hread', hshape, hdata⟩ := l.read_eq_ok data base
  obtain rfl := Except.ok.inj (hread.symm.trans hread')
  refine ⟨rfl, hdeclared, hshape, hle, hregion, ?_, ?_⟩
  · change l.last - l.first = dtypeSize l.dtype * t.data.length
    rw [hdata, length_readElements, hsize]
  · change ∀ i (h : i < t.data.length), _
    rw [hdata]
    intro i hi
    exact decode_readElements hi

/-- The loop adds one decoded tensor for every entry, and its span. -/
theorem parseEntries_sound {data : List UInt8} {base region : Nat} {items : List (String × Json)}
    {tensors tensors' : List (String × Tensor)} {spans spans' : List (Nat × Nat)}
    (h : parseEntries data base region items tensors spans = .ok (tensors', spans'))
    (hnames : (tensors.map Prod.fst).Nodup) :
    ∃ (added : List (String × Tensor)) (layouts : List Layout), tensors' = tensors ++ added ∧
      spans' = spans ++ layouts.map (fun l => (l.first, l.last)) ∧ layouts.length = added.length ∧
      List.Forall₂ (fun entry found => Decoded data base region entry found.1 found.2)
        (items.filter fun item => item.1 ≠ "__metadata__") (added.zip layouts) ∧
      (tensors'.map Prod.fst).Nodup := by
  induction items generalizing tensors spans with
  | nil =>
    obtain ⟨rfl, rfl⟩ := Prod.mk.inj (Except.ok.inj h)
    exact ⟨[], [], by simp, by simp, rfl, .nil, hnames⟩
  | cons item items ih =>
    obtain ⟨name, entry⟩ := item
    by_cases hmeta : name = "__metadata__"
    · rw [parseEntries, if_pos hmeta] at h
      rw [List.filter_cons_of_neg (by simpa using hmeta)]
      exact ih h hnames
    cases hlayout : entryLayout region name entry with
    | error e =>
      have herror : parseEntry data base region name entry = .error e := by
        rw [parseEntry_eq, hlayout, error_bind]
      rw [parseEntries_of_error hmeta herror] at h
      cases h
    | ok l =>
      obtain ⟨t, ht, -, -⟩ := l.read_eq_ok data base
      have hentry := parseEntry_of_layout hlayout ht
      by_cases hmem : name ∈ tensors.map Prod.fst
      · rw [parseEntries_of_mem hmeta hentry hmem] at h
        cases h
      rw [parseEntries_of_ok hmeta hentry hmem] at h
      have hnames' : ((tensors ++ [(name, t)]).map Prod.fst).Nodup := by
        rw [List.map_append, List.map_singleton]
        apply List.Nodup.append hnames (List.nodup_singleton _)
        exact List.disjoint_singleton.mpr hmem
      obtain ⟨added, layouts, htensors, hspans, hcount, hdecoded, hnodup⟩ := ih h hnames'
      refine ⟨(name, t) :: added, l :: layouts, ?_, ?_, congrArg Nat.succ hcount, ?_, hnodup⟩
      · rw [htensors, List.append_assoc, List.singleton_append]
      · rw [hspans, List.append_assoc, List.singleton_append, List.map_cons]
      · rw [List.filter_cons_of_pos (by simpa using hmeta), List.zip_cons_cons]
        exact .cons (decoded_of_layout hlayout ht) hdecoded

/-- In a list of byte ranges where each ends before its neighbour starts, each ends before every later one
starts. -/
theorem pairwise_of_not_overlapping {spans : List (Nat × Nat)} (hordered : ∀ s ∈ spans, s.1 ≤ s.2)
    (h : ∀ pair ∈ spans.zip spans.tail, pair.1.2 ≤ pair.2.1) : spans.Pairwise fun a b => a.2 ≤ b.1 := by
  induction spans with
  | nil => exact .nil
  | cons a spans ih =>
    cases spans with
    | nil => exact List.pairwise_singleton _ _
    | cons b spans =>
      obtain ⟨hab, hrest⟩ := List.forall_mem_cons.mp h
      obtain ⟨-, htail⟩ := List.forall_mem_cons.mp hordered
      have hpairs := ih htail hrest
      refine List.pairwise_cons.mpr ⟨?_, hpairs⟩
      intro c hc
      obtain rfl | hc := List.mem_cons.mp hc
      · exact hab
      · have hb := htail b (List.mem_cons_self ..)
        exact hab.trans (hb.trans ((List.pairwise_cons.mp hpairs).1 c hc))

/-- Ranges that pass the check after the sort are apart, in whatever order they were declared. -/
theorem apart_of_not_overlapping {layouts : List Layout} (hordered : ∀ l ∈ layouts, l.first ≤ l.last)
    (h : ¬overlapping (layouts.map fun l => (l.first, l.last))) : layouts.Pairwise Layout.Apart := by
  have hperm := List.mergeSort_perm (layouts.map fun l => (l.first, l.last))
    fun a b => a.1 < b.1 || (a.1 == b.1 && a.2 ≤ b.2)
  have hsorted : ((layouts.map fun l => (l.first, l.last)).mergeSort
      fun a b => a.1 < b.1 || (a.1 == b.1 && a.2 ≤ b.2)).Pairwise fun a b => a.2 ≤ b.1 := by
    apply pairwise_of_not_overlapping
    · intro s hs
      obtain ⟨l, hl, rfl⟩ := List.mem_map.mp (hperm.mem_iff.mp hs)
      exact hordered l hl
    · intro pair hpair
      apply not_lt.mp
      intro hlt
      exact h (List.any_eq_true.mpr ⟨pair, hpair, decide_eq_true hlt⟩)
  have hapart : ((layouts.map fun l => (l.first, l.last)).mergeSort
      fun a b => a.1 < b.1 || (a.1 == b.1 && a.2 ≤ b.2)).Pairwise fun a b => a.2 ≤ b.1 ∨ b.2 ≤ a.1 :=
    hsorted.imp Or.inl
  rw [hperm.pairwise_iff (fun h => h.symm), List.pairwise_map] at hapart
  apply hapart.imp
  intro a b hab p hfirst hlast hb
  dsimp only at hab
  omega

theorem parseHeader_eq_ok {parseJson : List UInt8 → Except String Json} {data : List UInt8}
    {header : Json} (h : parseHeader parseJson data = .ok header) :
    8 + littleEndian data 0 8 ≤ data.length ∧
      parseJson ((data.drop 8).take (littleEndian data 0 8)) = .ok header := by
  rw [parseHeader, toNat_headerLength] at h
  split at h
  · cases h
  split at h
  · cases h
  rename_i hshort hlong
  refine ⟨by omega, ?_⟩
  cases hjson : parseJson ((data.drop 8).take (littleEndian data 0 8)) with
  | ok found =>
    rw [hjson] at h
    exact congrArg Except.ok (Except.ok.inj h)
  | error what =>
    rw [hjson] at h
    cases h

/-- **Safety and soundness.** `parse` reads bytes of the buffer only, and no other byte matters; it fails
with a `std::runtime_error`; and when it succeeds its tensors are those that the header declares, decoded
from disjoint spans of the data region. -/
theorem parse_sound (parseJson : List UInt8 → Except String Json) (data : List UInt8) :
    (∀ a ∈ parseReads parseJson data, a < data.length) ∧
    (∀ data' : List UInt8, data'.length = data.length →
      (∀ a ∈ parseReads parseJson data, byteAt data a = byteAt data' a) →
        parse parseJson data' = parse parseJson data) ∧
    match parse parseJson data with
    | .error e => ∃ message, e = .runtimeError message
    | .ok st => 8 + littleEndian data 0 8 ≤ data.length ∧
      ∃ header layouts, parseJson ((data.drop 8).take (littleEndian data 0 8)) = .ok header ∧
        Sound data (8 + littleEndian data 0 8) (data.length - (8 + littleEndian data 0 8)) header
          st.tensors layouts := by
  refine ⟨fun a ha => lt_of_mem_parseReads ha, fun data' hlen hagree => parse_congr hlen hagree, ?_⟩
  cases hparse : parse parseJson data with
  | error e => exact failsAtRuntime_parse parseJson data e hparse
  | ok st =>
    simp only [parse, bind_eq_ok, throw_if_eq_ok] at hparse
    obtain ⟨header, hheader, ⟨tensors, spans⟩, hentries, hoverlap, hret⟩ := hparse
    obtain rfl := Except.ok.inj hret
    obtain ⟨hinside, hjson⟩ := parseHeader_eq_ok hheader
    obtain ⟨added, layouts, htensors, hspans, hcount, hdecoded, hnames⟩ :=
      parseEntries_sound hentries List.nodup_nil
    rw [List.nil_append] at htensors hspans
    subst htensors hspans
    rw [Nat.sub_sub, toNat_headerLength] at hdecoded
    refine ⟨hinside, header, layouts, hjson, hcount, hdecoded, hnames, ?_⟩
    apply apart_of_not_overlapping _ hoverlap
    intro l hl
    obtain ⟨i, hi, rfl⟩ := List.getElem_of_mem hl
    have hi' : i < (tensors.zip layouts).length := by
      rw [List.length_zip, ← hcount, Nat.min_self]
      exact hi
    have hfound := hdecoded.get (hdecoded.length_eq ▸ hi') hi'
    simpa using hfound.ordered

end SafeTensors

end InferenceEngine
