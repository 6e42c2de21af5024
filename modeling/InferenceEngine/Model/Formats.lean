import InferenceEngine.Library.Binary
import InferenceEngine.Model.Dtype
import Mathlib.Data.Nat.Bitwise
import Mathlib.Tactic.FieldSimp
import Mathlib.Tactic.NormNum

/-!
# Stored elements and their values

The conversions of the loader keep the value of an element: the `float` they make stands for what the
stored pattern stands for, subnormal numbers, infinities and NaN included.
-/

namespace InferenceEngine

open BinaryFormat

theorem and_two_pow_eq {n i : Nat} : n &&& 2 ^ i = n / 2 ^ i % 2 * 2 ^ i := by
  rw [Nat.and_two_pow, Nat.testBit_eq_decide_div_mod_eq]
  rcases Nat.mod_two_eq_zero_or_one (n / 2 ^ i) with h | h <;> simp [h]

theorem or_eq_pattern {sign exp frac : Nat} (hexp : exp < 2 ^ 8) (hfrac : frac < 2 ^ 23) :
    (sign <<< 31 ||| exp <<< 23) ||| frac = binary32.pattern sign exp frac := by
  have hlow : exp <<< 23 < 2 ^ 31 := by
    rw [Nat.shiftLeft_eq]
    omega
  rw [← Nat.shiftLeft_add_eq_or_of_lt hlow]
  have hjoin : sign <<< 31 + exp <<< 23 = (sign * 2 ^ 8 + exp) <<< 23 := by
    simp only [Nat.shiftLeft_eq]
    ring
  rw [hjoin, ← Nat.shiftLeft_add_eq_or_of_lt hfrac, Nat.shiftLeft_eq]
  rfl

/-- The loop shifts a mantissa up until its leading one is at bit 10, and counts the exponent down. -/
theorem normalize_spec {fuel : Nat} {mant : BitVec 32} {e : Int} (hlt : mant.toNat < 2 ^ 11)
    (hfuel : 2 ^ 10 ≤ mant.toNat * 2 ^ fuel) : ∃ k : Nat,
      (normalize fuel mant e).1.toNat = mant.toNat * 2 ^ k ∧ 2 ^ 10 ≤ mant.toNat * 2 ^ k ∧
      mant.toNat * 2 ^ k < 2 ^ 11 ∧ (normalize fuel mant e).2 = e - k ∧ k ≤ fuel := by
  induction fuel generalizing mant e with
  | zero => exact ⟨0, by simp [normalize], hfuel, by simpa using hlt, by simp [normalize], le_rfl⟩
  | succ fuel ih =>
    have hbit : mant &&& 0x400#32 = 0#32 ↔ mant.toNat < 2 ^ 10 := by
      rw [← BitVec.toNat_inj, BitVec.toNat_and]
      change mant.toNat &&& 2 ^ 10 = 0 ↔ _
      rw [and_two_pow_eq]
      omega
    rw [normalize]
    by_cases hsmall : mant.toNat < 2 ^ 10
    · rw [if_pos (hbit.mpr hsmall)]
      have hshift : (mant <<< 1).toNat = mant.toNat * 2 := by
        rw [BitVec.toNat_shiftLeft, Nat.shiftLeft_eq]
        omega
      have hdouble : ∀ k, (mant <<< 1).toNat * 2 ^ k = mant.toNat * 2 ^ (k + 1) := fun k => by
        rw [hshift, Nat.mul_assoc, ← pow_succ']
      have hlt₁ : (mant <<< 1).toNat < 2 ^ 11 := by omega
      obtain ⟨k, hmant, hge, hlt', he, hk⟩ := @ih (mant <<< 1) (e - 1) hlt₁ (by rwa [hdouble])
      rw [hdouble] at hmant hge hlt'
      refine ⟨k + 1, hmant, hge, hlt', ?_, Nat.succ_le_succ hk⟩
      rw [he]
      push_cast
      ring
    · rw [if_neg fun h => hsmall (hbit.mp h)]
      exact ⟨0, by simp, by omega, by simpa using hlt, by simp, Nat.zero_le _⟩

/-- The fields of a half precision pattern, as the conversion takes them out. -/
theorem half_fields {b : BitVec 16} {sign exp frac : Nat} (hsign : sign < 2) (hexp : exp < 2 ^ 5)
    (hfrac : frac < 2 ^ 10) (hb : b.toNat = binary16.pattern sign exp frac) :
    ((b &&& 0x8000#16).zeroExtend 32 <<< 16).toNat = sign <<< 31 ∧
    (b >>> 10 &&& 0x1F#16).toNat = exp ∧ ((b &&& 0x3FF#16).zeroExtend 32).toNat = frac := by
  have hpattern : b.toNat = (sign * 2 ^ 5 + exp) * 2 ^ 10 + frac := hb
  refine ⟨?_, ?_, ?_⟩
  · have hmask : (b &&& 0x8000#16).toNat = sign * 2 ^ 15 := by
      rw [BitVec.toNat_and]
      change b.toNat &&& 2 ^ 15 = _
      rw [and_two_pow_eq]
      omega
    simp only [BitVec.toNat_shiftLeft, BitVec.truncate_eq_setWidth, BitVec.toNat_setWidth, hmask,
      Nat.shiftLeft_eq]
    omega
  · rw [BitVec.toNat_and, BitVec.toNat_ushiftRight, Nat.shiftRight_eq_div_pow]
    change b.toNat / 2 ^ 10 &&& 2 ^ 5 - 1 = exp
    rw [Nat.and_two_pow_sub_one_eq_mod]
    omega
  · simp only [BitVec.truncate_eq_setWidth, BitVec.toNat_setWidth, BitVec.toNat_and]
    change (b.toNat &&& 2 ^ 10 - 1) % 2 ^ 32 = frac
    rw [Nat.and_two_pow_sub_one_eq_mod]
    omega

theorem toNat_assemble {s m : BitVec 32} {sign frac : Nat} (e : Nat) (hs : s.toNat = sign <<< 31)
    (hm : m.toNat = frac) (he : e < 2 ^ 8) (hfrac : frac < 2 ^ 10) :
    (s ||| (BitVec.ofNat 32 e <<< 23) ||| (m <<< 13)).toNat =
      binary32.pattern sign e (frac * 2 ^ 13) := by
  have hexp : (BitVec.ofNat 32 e <<< 23).toNat = e <<< 23 := by
    rw [BitVec.toNat_shiftLeft, BitVec.toNat_ofNat, Nat.shiftLeft_eq, Nat.shiftLeft_eq]
    omega
  have hmant : (m <<< 13).toNat = frac * 2 ^ 13 := by
    rw [BitVec.toNat_shiftLeft, hm, Nat.shiftLeft_eq]
    omega
  rw [BitVec.toNat_or, BitVec.toNat_or, hs, hexp, hmant]
  exact or_eq_pattern he (by omega)

section Half

variable {b : BitVec 16} {sign exp frac : Nat} (hsign : sign < 2) (hexp : exp < 2 ^ 5) (hfrac : frac < 2 ^ 10)
  (hb : b.toNat = binary16.pattern sign exp frac)

include hsign hexp hfrac hb

theorem exp_eq_iff (n : Nat) (hn : n < 2 ^ 16) :
    (b >>> 10 &&& 0x1F#16 = BitVec.ofNat 16 n) ↔ exp = n := by
  rw [← BitVec.toNat_inj, (half_fields hsign hexp hfrac hb).2.1, BitVec.toNat_ofNat, Nat.mod_eq_of_lt hn]

theorem frac_eq_zero_iff : ((b &&& 0x3FF#16).zeroExtend 32 = 0#32) ↔ frac = 0 := by
  rw [← BitVec.toNat_inj, (half_fields hsign hexp hfrac hb).2.2]
  rfl

theorem toNat_f16ToF32_zero (h0 : exp = 0) (hf : frac = 0) :
    (f16ToF32 b).toNat = binary32.pattern sign 0 0 := by
  have hE := (exp_eq_iff hsign hexp hfrac hb 0 (by decide)).mpr h0
  have hM := (frac_eq_zero_iff hsign hexp hfrac hb).mpr hf
  rw [f16ToF32]
  simp only [hE, hM, if_true, (half_fields hsign hexp hfrac hb).1, Nat.shiftLeft_eq]
  simp only [pattern, binary32]
  omega

/-- A subnormal half becomes a normal `float`. -/
theorem toNat_f16ToF32_subnormal (h0 : exp = 0) (hf : frac ≠ 0) :
    ∃ k ≤ 10, 2 ^ 10 ≤ frac * 2 ^ k ∧ frac * 2 ^ k < 2 ^ 11 ∧
      (f16ToF32 b).toNat = binary32.pattern sign (113 - k) ((frac * 2 ^ k - 2 ^ 10) * 2 ^ 13) := by
  obtain ⟨hS, -, hM⟩ := half_fields hsign hexp hfrac hb
  have hE := (exp_eq_iff hsign hexp hfrac hb 0 (by decide)).mpr h0
  have hM0 := mt (frac_eq_zero_iff hsign hexp hfrac hb).mp hf
  obtain ⟨k, hmk, hge, hlt, hek, hk⟩ := @normalize_spec 10 ((b &&& 0x3FF#16).zeroExtend 32) 1
    (by omega) (by rw [hM]; omega)
  rw [hM] at hmk hge hlt
  refine ⟨k, hk, hge, hlt, ?_⟩
  have hexpk : (1 - (k : Int) + (127 - 15)) = ((113 - k : Nat) : Int) := by omega
  rw [f16ToF32]
  simp only [hE, if_true, if_neg hM0, hek, hexpk, BitVec.ofInt_natCast]
  refine toNat_assemble (113 - k) hS ?_ (by omega) (by omega)
  rw [BitVec.toNat_and, hmk]
  change frac * 2 ^ k &&& 2 ^ 10 - 1 = frac * 2 ^ k - 2 ^ 10
  rw [Nat.and_two_pow_sub_one_eq_mod]
  omega

theorem toNat_f16ToF32_special (h31 : exp = 31) :
    (f16ToF32 b).toNat = binary32.pattern sign 255 (frac * 2 ^ 13) := by
  obtain ⟨hS, -, hM⟩ := half_fields hsign hexp hfrac hb
  have hE := (exp_eq_iff hsign hexp hfrac hb 31 (by decide)).mpr h31
  have hne : ¬BitVec.ofNat 16 31 = 0#16 := by decide
  have hones : (0x7F800000#32) = BitVec.ofNat 32 255 <<< 23 := by decide
  rw [f16ToF32]
  simp only [hE, if_neg hne, if_true, hones]
  exact toNat_assemble 255 hS hM (by decide) hfrac

theorem toNat_f16ToF32_normal (h0 : exp ≠ 0) (h31 : exp ≠ 31) :
    (f16ToF32 b).toNat = binary32.pattern sign (exp + 112) (frac * 2 ^ 13) := by
  obtain ⟨hS, hE, hM⟩ := half_fields hsign hexp hfrac hb
  have hE0 := mt (exp_eq_iff hsign hexp hfrac hb 0 (by decide)).mp h0
  have hE31 := mt (exp_eq_iff hsign hexp hfrac hb 31 (by decide)).mp h31
  rw [f16ToF32]
  simp only [if_neg hE0, if_neg hE31, hE]
  exact toNat_assemble (exp + 112) hS hM (by omega) hfrac

end Half

/-! ### The values -/

theorem value_subnormal {negative : Bool} {frac k : Nat} (hk : k ≤ 10) (hge : 2 ^ 10 ≤ frac * 2 ^ k) :
    binary32.value negative (113 - k) ((frac * 2 ^ k - 2 ^ 10) * 2 ^ 13) = binary16.value negative 0 frac := by
  rw [value_normal (f := binary32) (by simp [binary32]; omega) (by omega), value_zero (f := binary16) (by decide)]
  have hcast : ((((frac * 2 ^ k - 2 ^ 10) * 2 ^ 13 : Nat) : ℚ)) = (frac * 2 ^ k - 2 ^ 10) * 2 ^ 13 := by
    rw [Nat.cast_mul, Nat.cast_sub hge]
    push_cast
    ring
  have hexp : (((113 - k : Nat) : ℤ) - (binary32.bias : ℤ) - (binary32.fracBits : ℤ)) =
      (1 - (binary16.bias : ℤ) - (binary16.fracBits : ℤ)) + (-(k : ℤ) + -13) := by
    simp only [bias, binary16, binary32]
    omega
  have hunit : (2 : ℚ) ^ (-(k : ℤ) + -13) = ((2 ^ k) * 2 ^ 13)⁻¹ := by
    rw [zpow_add₀ two_ne_zero, zpow_neg, zpow_neg, zpow_natCast, mul_inv]
    rfl
  have hk0 : (2 : ℚ) ^ k ≠ 0 := pow_ne_zero _ two_ne_zero
  refine congrArg (Value.finite _) ?_
  rw [hcast, hexp, zpow_add₀ two_ne_zero, hunit]
  simp only [binary32]
  field_simp
  ring

theorem value_special (negative : Bool) (frac : Nat) :
    binary32.value negative 255 (frac * 2 ^ 13) = binary16.value negative 31 frac := by
  simp [value, binary16, binary32]

theorem value_of_normal {negative : Bool} {exp frac : Nat} (h0 : exp ≠ 0) (hexp : exp < 31) :
    binary32.value negative (exp + 112) (frac * 2 ^ 13) = binary16.value negative exp frac := by
  rw [value_normal (f := binary32) (by simp [binary32]; omega) (by omega),
    value_normal (f := binary16) (by simp [binary16]; omega) h0]
  have hexp' : (((exp + 112 : Nat) : ℤ) - (binary32.bias : ℤ) - (binary32.fracBits : ℤ)) =
      ((exp : ℤ) - (binary16.bias : ℤ) - (binary16.fracBits : ℤ)) + -13 := by
    simp only [bias, binary16, binary32]
    omega
  have hunit : (2 : ℚ) ^ (-13 : ℤ) = (2 ^ 13)⁻¹ := by
    rw [zpow_neg]
    rfl
  refine congrArg (Value.finite _) ?_
  rw [hexp', zpow_add₀ two_ne_zero, hunit]
  simp only [binary16, binary32]
  push_cast
  field_simp
  ring

/-- **`f16_to_f32` keeps the value.** -/
theorem decode_f16ToF32 (b : BitVec 16) :
    binary32.decode (f16ToF32 b).toNat = binary16.decode b.toNat := by
  obtain ⟨sign, exp, frac, hsign, hexp, hfrac, hb⟩ := binary16.exists_pattern b.isLt
  have hexp' : exp < 2 ^ 5 := hexp
  have hfrac' : frac < 2 ^ 10 := hfrac
  have hval : ∀ {e m : Nat}, e < 2 ^ 8 → m < 2 ^ 23 → (f16ToF32 b).toNat = binary32.pattern sign e m →
      binary32.value (sign = 1) e m = binary16.value (sign = 1) exp frac →
      binary32.decode (f16ToF32 b).toNat = binary16.decode b.toNat := by
    intro e m he hm hbits hvalue
    rw [hbits, hb, decode_pattern _ hsign he hm, decode_pattern _ hsign hexp hfrac, hvalue]
  by_cases h0 : exp = 0
  · by_cases hf : frac = 0
    · refine hval (by decide) (by decide) (toNat_f16ToF32_zero hsign hexp hfrac hb h0 hf) ?_
      simp [value, h0, hf, binary16, binary32]
    · obtain ⟨k, hk, hge, hlt, hbits⟩ := toNat_f16ToF32_subnormal hsign hexp hfrac hb h0 hf
      refine hval (by omega) (by omega) hbits ?_
      rw [value_subnormal hk hge, h0]
  · by_cases h31 : exp = 31
    · refine hval (by decide) (by omega) (toNat_f16ToF32_special hsign hexp hfrac hb h31) ?_
      rw [value_special, h31]
    · exact hval (by omega) (by omega) (toNat_f16ToF32_normal hsign hexp hfrac hb h0 h31)
        (value_of_normal h0 (by omega))

/-- **`bf16_to_f32` keeps the value.** -/
theorem decode_bf16ToF32 (b : BitVec 16) :
    binary32.decode (bf16ToF32 b).toNat = bfloat16.decode b.toNat := by
  obtain ⟨sign, exp, frac, hsign, hexp, hfrac, hb⟩ := bfloat16.exists_pattern b.isLt
  have hexp' : exp < 2 ^ 8 := hexp
  have hfrac' : frac < 2 ^ 7 := hfrac
  have hlt : frac * 2 ^ 16 < 2 ^ 23 := by omega
  have hbits : (bf16ToF32 b).toNat = binary32.pattern sign exp (frac * 2 ^ 16) := by
    have hpattern : b.toNat = (sign * 2 ^ 8 + exp) * 2 ^ 7 + frac := hb
    simp only [bf16ToF32, BitVec.toNat_shiftLeft, BitVec.truncate_eq_setWidth, BitVec.toNat_setWidth,
      Nat.shiftLeft_eq, pattern, binary32]
    omega
  rw [hbits, hb, decode_pattern binary32 hsign hexp hlt, decode_pattern bfloat16 hsign hexp hfrac]
  have hunit : ∀ z : ℤ, (2 : ℚ) ^ (z - 23) = 2 ^ (z - 7) * (2 ^ 16)⁻¹ := fun z => by
    have hz : z - 23 = z - 7 + -16 := by ring
    rw [hz, zpow_add₀ two_ne_zero, zpow_neg]
    rfl
  by_cases h255 : exp = 255
  · simp [value, h255, binary32, bfloat16]
  by_cases h0 : exp = 0
  · subst h0
    rw [value_zero (f := binary32) (by decide), value_zero (f := bfloat16) (by decide)]
    have hsub := hunit (1 - 127)
    simp only [bias, binary32, bfloat16]
    refine congrArg (Value.finite _) ?_
    push_cast at hsub ⊢
    rw [hsub]
    field_simp
    norm_num
  · rw [value_normal (f := binary32) (by simpa [binary32] using h255) h0,
      value_normal (f := bfloat16) (by simpa [bfloat16] using h255) h0]
    have hsub := hunit ((exp : ℤ) - 127)
    simp only [bias, binary32, bfloat16]
    refine congrArg (Value.finite _) ?_
    push_cast at hsub ⊢
    rw [hsub]
    field_simp
    ring

end InferenceEngine
