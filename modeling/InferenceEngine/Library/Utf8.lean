import InferenceEngine.Library.PrefixCode

/-!
# UTF-8

The encoding of characters as a self-synchronising code. The beginnings of words are those of the table of
well-formed byte sequences.
-/

namespace Utf8

/-- The character of a well-formed sequence. -/
def charOf (s : List UInt8) : Option Char :=
  match s.toByteArray.utf8DecodeChar? 0 with
  | some c => if String.utf8EncodeChar c = s then some c else none
  | none => none

def isContinuation (b : UInt8) : Bool := 0x80 ≤ b && b ≤ 0xBF

/-- A byte that may follow the first byte `a` of three or four. -/
def isSecond (a b : UInt8) : Bool :=
  (if a = 0xE0 then 0xA0 else if a = 0xF0 then 0x90 else 0x80) ≤ b &&
    b ≤ (if a = 0xED then 0x9F else if a = 0xF4 then 0x8F else 0xBF)

/-- The beginning of a well-formed sequence, and not all of it. -/
def incomplete : List UInt8 → Bool
  | [a] => 0xC2 ≤ a && a ≤ 0xF4
  | [a, b] => 0xE0 ≤ a && a ≤ 0xF4 && isSecond a b
  | [a, b, c] => 0xF0 ≤ a && a ≤ 0xF4 && isSecond a b && isContinuation c
  | _ => false

theorem charOf_eq_some (s : List UInt8) (c : Char) : charOf s = some c ↔ String.utf8EncodeChar c = s := by
  constructor
  · intro h
    rw [charOf] at h
    split at h
    · split at h
      · cases h
        assumption
      · cases h
    · cases h
  · intro h
    have hdecode := @ByteArray.utf8DecodeChar?_utf8EncodeChar_append ByteArray.empty c
    rw [ByteArray.append_empty, h] at hdecode
    rw [charOf, hdecode]
    dsimp only
    rw [if_pos h]

theorem prefix_free (c c' : Char) (t : List UInt8)
    (h : String.utf8EncodeChar c' = String.utf8EncodeChar c ++ t) : t = [] := by
  have hdecode := @ByteArray.utf8DecodeChar?_utf8EncodeChar_append t.toByteArray c
  have hdecode' := @ByteArray.utf8DecodeChar?_utf8EncodeChar_append ByteArray.empty c'
  rw [ByteArray.append_empty, h, List.toByteArray_append, hdecode] at hdecode'
  rw [Option.some.inj hdecode'] at h
  exact List.append_right_eq_self.mp h.symm

/-- The bytes of a character, by the size of its number. -/
inductive Bytes (v : Nat) : List UInt8 → Prop where
  | one (a : UInt8) (hv : v ≤ 0x7F) (ha : a.toNat = v) : Bytes v [a]
  | two (a b : UInt8) (hv : 0x80 ≤ v ∧ v ≤ 0x7FF) (ha : a.toNat = v / 64 + 0xC0)
    (hb : b.toNat = v % 64 + 0x80) : Bytes v [a, b]
  | three (a b d : UInt8) (hv : 0x800 ≤ v ∧ v ≤ 0xFFFF) (hscalar : v < 0xD800 ∨ 0xDFFF < v)
    (ha : a.toNat = v / 4096 + 0xE0) (hb : b.toNat = v / 64 % 64 + 0x80) (hd : d.toNat = v % 64 + 0x80) :
    Bytes v [a, b, d]
  | four (a b d e : UInt8) (hv : 0x10000 ≤ v ∧ v < 0x110000) (ha : a.toNat = v / 262144 + 0xF0)
    (hb : b.toNat = v / 4096 % 64 + 0x80) (hd : d.toNat = v / 64 % 64 + 0x80)
    (he : e.toNat = v % 64 + 0x80) : Bytes v [a, b, d, e]

theorem bytes_encode (c : Char) : Bytes c.val.toNat (String.utf8EncodeChar c) := by
  have hvalid : c.val.toNat < 0xD800 ∨ 0xDFFF < c.val.toNat ∧ c.val.toNat < 0x110000 := c.valid
  rw [String.utf8EncodeChar]
  generalize c.val.toNat = v at *
  split
  · exact .one _ ‹_› (by rw [UInt8.toNat_ofNat']; omega)
  split
  · exact .two _ _ (by omega) (by rw [UInt8.toNat_ofNat']; omega) (by rw [UInt8.toNat_ofNat']; omega)
  split
  · exact .three _ _ _ (by omega) (by omega) (by rw [UInt8.toNat_ofNat']; omega)
      (by rw [UInt8.toNat_ofNat']; omega) (by rw [UInt8.toNat_ofNat']; omega)
  · exact .four _ _ _ _ (by omega) (by rw [UInt8.toNat_ofNat']; omega) (by rw [UInt8.toNat_ofNat']; omega)
      (by rw [UInt8.toNat_ofNat']; omega) (by rw [UInt8.toNat_ofNat']; omega)

theorem Bytes.unique {v : Nat} {s s' : List UInt8} (h : Bytes v s) (h' : Bytes v s') : s = s' := by
  cases h <;> cases h' <;> simp only [← UInt8.toNat_inj, List.cons.injEq, and_true] <;> omega

/-- The number of a character has an encoding, and the character has it. -/
theorem exists_encode {v : Nat} {s : List UInt8} (h : Bytes v s) : ∃ c, String.utf8EncodeChar c = s := by
  have hvalid : v.isValidChar := by
    cases h <;> simp only [Nat.isValidChar] <;> omega
  have hv : (Char.ofNatAux v hvalid).val.toNat = v := UInt32.toNat_ofNatLT ..
  have hbytes := bytes_encode (Char.ofNatAux v hvalid)
  rw [hv] at hbytes
  exact ⟨Char.ofNatAux v hvalid, hbytes.unique h⟩

theorem Bytes.continuation {v : Nat} {s : List UInt8} (h : Bytes v s) :
    ∀ b ∈ s.tail, 0x80 ≤ b.toNat ∧ b.toNat < 0xC0 := by
  cases h <;> simp only [List.tail_cons, List.forall_mem_cons, List.not_mem_nil, false_implies,
    implies_true, and_true] <;> omega

theorem head_not_inside (c c' : Char) (b : UInt8) (s t t' : List UInt8)
    (h : String.utf8EncodeChar c = b :: t') (h' : String.utf8EncodeChar c' = s ++ b :: t) : s = [] := by
  have hhead : b.toNat < 0x80 ∨ 0xC0 ≤ b.toNat := by
    have hbytes := bytes_encode c
    rw [h] at hbytes
    cases hbytes <;> omega
  have hinside := (bytes_encode c').continuation b
  rw [h'] at hinside
  by_contra hs
  obtain ⟨a, s, rfl⟩ := List.exists_cons_of_ne_nil hs
  have := hinside (by simp)
  omega

/-! ### Beginnings of words -/

theorem isSecond_iff (a b : UInt8) : isSecond a b = true ↔
    (0x80 ≤ b.toNat ∧ b.toNat ≤ 0xBF) ∧ (a.toNat = 0xE0 → 0xA0 ≤ b.toNat) ∧
      (a.toNat = 0xF0 → 0x90 ≤ b.toNat) ∧ (a.toNat = 0xED → b.toNat ≤ 0x9F) ∧
      (a.toNat = 0xF4 → b.toNat ≤ 0x8F) := by
  simp only [isSecond, Bool.and_eq_true, decide_eq_true_eq, ← UInt8.toNat_inj, UInt8.le_iff_toNat_le,
    apply_ite UInt8.toNat, UInt8.reduceToNat]
  repeat' split
  all_goals omega

theorem exists_two {a : UInt8} (ha : 0xC2 ≤ a.toNat ∧ a.toNat < 0xE0) :
    ∃ c, String.utf8EncodeChar c = [a, 0x80] :=
  exists_encode (.two (v := (a.toNat - 0xC0) * 64) a 0x80 (by omega) (by omega)
    (by simp only [UInt8.reduceToNat]; omega))

theorem exists_three {a b : UInt8} (ha : 0xE0 ≤ a.toNat ∧ a.toNat < 0xF0) (hb : isSecond a b = true) :
    ∃ c, String.utf8EncodeChar c = [a, b, 0x80] := by
  rw [isSecond_iff] at hb
  exact exists_encode (.three (v := (a.toNat - 0xE0) * 4096 + (b.toNat - 0x80) * 64) a b 0x80 (by omega)
    (by omega) (by omega) (by omega) (by simp only [UInt8.reduceToNat]; omega))

theorem exists_four {a b d : UInt8} (ha : 0xF0 ≤ a.toNat ∧ a.toNat ≤ 0xF4) (hb : isSecond a b = true)
    (hd : 0x80 ≤ d.toNat ∧ d.toNat ≤ 0xBF) : ∃ c, String.utf8EncodeChar c = [a, b, d, 0x80] := by
  rw [isSecond_iff] at hb
  exact exists_encode (.four
    (v := (a.toNat - 0xF0) * 262144 + (b.toNat - 0x80) * 4096 + (d.toNat - 0x80) * 64) a b d 0x80
    (by omega) (by omega) (by omega) (by omega) (by simp only [UInt8.reduceToNat]; omega))

theorem exists_second (a : UInt8) : ∃ b, isSecond a b = true := by
  by_cases he : a.toNat = 0xE0
  · exact ⟨0xA0, by rw [isSecond_iff]; simp only [UInt8.reduceToNat]; omega⟩
  by_cases hf : a.toNat = 0xF0
  · exact ⟨0x90, by rw [isSecond_iff]; simp only [UInt8.reduceToNat]; omega⟩
  · exact ⟨0x80, by rw [isSecond_iff]; simp only [UInt8.reduceToNat]; omega⟩

/-- The beginnings of words are those of the table. -/
theorem incomplete_iff (s : List UInt8) :
    incomplete s = true ↔ s ≠ [] ∧ ∃ c t, t ≠ [] ∧ String.utf8EncodeChar c = s ++ t := by
  constructor
  · intro h
    match s, h with
    | [a], h =>
      simp only [incomplete, Bool.and_eq_true, decide_eq_true_eq, UInt8.le_iff_toNat_le,
        UInt8.reduceToNat] at h
      refine ⟨by simp, ?_⟩
      obtain ⟨b, hb⟩ := exists_second a
      by_cases htwo : a.toNat < 0xE0
      · obtain ⟨c, hc⟩ := exists_two ⟨h.1, htwo⟩
        exact ⟨c, [0x80], by simp, hc⟩
      by_cases hthree : a.toNat < 0xF0
      · obtain ⟨c, hc⟩ := exists_three ⟨by omega, hthree⟩ hb
        exact ⟨c, [b, 0x80], by simp, hc⟩
      · obtain ⟨c, hc⟩ := exists_four (d := 0x80) ⟨by omega, h.2⟩ hb (by decide)
        exact ⟨c, [b, 0x80, 0x80], by simp, hc⟩
    | [a, b], h =>
      simp only [incomplete, Bool.and_eq_true, decide_eq_true_eq, UInt8.le_iff_toNat_le,
        UInt8.reduceToNat] at h
      refine ⟨by simp, ?_⟩
      by_cases hthree : a.toNat < 0xF0
      · obtain ⟨c, hc⟩ := exists_three ⟨h.1.1, hthree⟩ h.2
        exact ⟨c, [0x80], by simp, hc⟩
      · obtain ⟨c, hc⟩ := exists_four (d := 0x80) ⟨by omega, h.1.2⟩ h.2 (by decide)
        exact ⟨c, [0x80, 0x80], by simp, hc⟩
    | [a, b, d], h =>
      simp only [incomplete, isContinuation, Bool.and_eq_true, decide_eq_true_eq, UInt8.le_iff_toNat_le,
        UInt8.reduceToNat] at h
      obtain ⟨c, hc⟩ := exists_four ⟨h.1.1.1, h.1.1.2⟩ h.1.2 h.2
      exact ⟨by simp, c, [0x80], by simp, hc⟩
  · intro ⟨hs, c, t, ht, h⟩
    have hbytes := bytes_encode c
    obtain ⟨x, t, rfl⟩ := List.exists_cons_of_ne_nil ht
    rw [h] at hbytes
    match s, hs with
    | [a], _ =>
      have ha : 0xC2 ≤ a.toNat ∧ a.toNat ≤ 0xF4 := by cases hbytes <;> omega
      simpa only [incomplete, Bool.and_eq_true, decide_eq_true_eq, UInt8.le_iff_toNat_le,
        UInt8.reduceToNat] using ha
    | [a, b], _ =>
      have hab : (0xE0 ≤ a.toNat ∧ a.toNat ≤ 0xF4) ∧ isSecond a b = true := by
        rw [isSecond_iff]
        cases hbytes <;> omega
      simpa only [incomplete, Bool.and_eq_true, decide_eq_true_eq, UInt8.le_iff_toNat_le,
        UInt8.reduceToNat] using hab
    | [a, b, d], _ =>
      have habd : ((0xF0 ≤ a.toNat ∧ a.toNat ≤ 0xF4) ∧ isSecond a b = true) ∧
          0x80 ≤ d.toNat ∧ d.toNat ≤ 0xBF := by
        rw [isSecond_iff]
        cases hbytes
        omega
      simpa only [incomplete, isContinuation, Bool.and_eq_true, decide_eq_true_eq, UInt8.le_iff_toNat_le,
        UInt8.reduceToNat] using habd
    | a :: b :: d :: e :: s, _ =>
      have hlen : (a :: b :: d :: e :: s ++ x :: t).length ≤ 4 := by
        generalize a :: b :: d :: e :: s ++ x :: t = word at hbytes
        cases hbytes <;> simp
      simp only [List.cons_append, List.length_cons, List.length_append] at hlen
      omega

end Utf8

/-- UTF-8, with U+FFFD for what is not well-formed. -/
def utf8 : PrefixCode UInt8 Char where
  encode := String.utf8EncodeChar
  charOf := Utf8.charOf
  incomplete := Utf8.incomplete
  replacement := '\uFFFD'
  charOf_eq_some := Utf8.charOf_eq_some
  incomplete_iff := Utf8.incomplete_iff
  encode_ne_nil := by
    intro c h
    have hbytes := Utf8.bytes_encode c
    rw [h] at hbytes
    cases hbytes
  prefix_free := Utf8.prefix_free
  head_not_inside := Utf8.head_not_inside

/-- The euro sign is cut off after its second byte. -/
example : utf8.decode [0x41, 0xE2, 0x82] = ['A', '\uFFFD'] := by decide +kernel
