import Mathlib.Algebra.Field.Rat
import Mathlib.Algebra.Order.Field.Basic
import Mathlib.Tactic.Ring
import Mathlib.Data.Rat.Defs

/-!
# Binary interchange formats

What a bit pattern of a binary floating-point format stands for: a sign bit, a biased exponent and a
fraction, from the top. The exponent of all ones is kept for the infinities and NaN, and the exponent zero
for the subnormal numbers.
-/

/-- A binary format, by the widths of its exponent and its fraction. -/
structure BinaryFormat where
  expBits : Nat
  fracBits : Nat

namespace BinaryFormat

/-- What a bit pattern stands for. Zero has a sign; the payload of NaN does not matter. -/
inductive Value where
  | nan
  | infinite (negative : Bool)
  | finite (negative : Bool) (magnitude : ℚ)

/-- IEEE 754 half precision. -/
def binary16 : BinaryFormat := ⟨5, 10⟩

/-- The upper half of single precision. -/
def bfloat16 : BinaryFormat := ⟨8, 7⟩

/-- IEEE 754 single precision. -/
def binary32 : BinaryFormat := ⟨8, 23⟩

variable (f : BinaryFormat)

def bias : Nat := 2 ^ (f.expBits - 1) - 1

def value (negative : Bool) (exp frac : Nat) : Value :=
  if exp = 2 ^ f.expBits - 1 then if frac = 0 then .infinite negative else .nan
  else if exp = 0 then .finite negative (frac * 2 ^ (1 - (f.bias : ℤ) - f.fracBits))
  else .finite negative ((2 ^ f.fracBits + frac) * 2 ^ ((exp : ℤ) - f.bias - f.fracBits))

variable {f} in
theorem value_zero {negative : Bool} {frac : Nat} (h : 0 ≠ 2 ^ f.expBits - 1) :
    f.value negative 0 frac = .finite negative (frac * 2 ^ (1 - (f.bias : ℤ) - f.fracBits)) := by
  rw [value, if_neg h, if_pos rfl]

variable {f} in
theorem value_normal {negative : Bool} {exp frac : Nat} (h : exp ≠ 2 ^ f.expBits - 1) (h0 : exp ≠ 0) :
    f.value negative exp frac =
      .finite negative ((2 ^ f.fracBits + frac) * 2 ^ ((exp : ℤ) - f.bias - f.fracBits)) := by
  rw [value, if_neg h, if_neg h0]

/-- The pattern with the given fields. -/
def pattern (sign exp frac : Nat) : Nat := (sign * 2 ^ f.expBits + exp) * 2 ^ f.fracBits + frac

/-- What a pattern stands for. -/
def decode (bits : Nat) : Value :=
  f.value (bits / 2 ^ f.fracBits / 2 ^ f.expBits % 2 = 1) (bits / 2 ^ f.fracBits % 2 ^ f.expBits)
    (bits % 2 ^ f.fracBits)

theorem decode_pattern {sign exp frac : Nat} (hsign : sign < 2) (hexp : exp < 2 ^ f.expBits)
    (hfrac : frac < 2 ^ f.fracBits) : f.decode (f.pattern sign exp frac) = f.value (sign = 1) exp frac := by
  have hdiv : f.pattern sign exp frac / 2 ^ f.fracBits = sign * 2 ^ f.expBits + exp := by
    rw [pattern, Nat.mul_comm, Nat.mul_add_div (Nat.two_pow_pos _), Nat.div_eq_of_lt hfrac, Nat.add_zero]
  have hmod : f.pattern sign exp frac % 2 ^ f.fracBits = frac := by
    rw [pattern, Nat.mul_comm, Nat.mul_add_mod, Nat.mod_eq_of_lt hfrac]
  have hdiv' : (sign * 2 ^ f.expBits + exp) / 2 ^ f.expBits = sign := by
    rw [Nat.mul_comm, Nat.mul_add_div (Nat.two_pow_pos _), Nat.div_eq_of_lt hexp, Nat.add_zero]
  have hmod' : (sign * 2 ^ f.expBits + exp) % 2 ^ f.expBits = exp := by
    rw [Nat.mul_comm, Nat.mul_add_mod, Nat.mod_eq_of_lt hexp]
  rw [decode, hdiv, hmod, hdiv', hmod', Nat.mod_eq_of_lt hsign]

theorem exists_pattern {bits : Nat} (h : bits < 2 ^ (1 + f.expBits + f.fracBits)) :
    ∃ sign exp frac, sign < 2 ∧ exp < 2 ^ f.expBits ∧ frac < 2 ^ f.fracBits ∧
      bits = f.pattern sign exp frac := by
  refine ⟨bits / 2 ^ f.fracBits / 2 ^ f.expBits, bits / 2 ^ f.fracBits % 2 ^ f.expBits,
    bits % 2 ^ f.fracBits, ?_, Nat.mod_lt _ (Nat.two_pow_pos _), Nat.mod_lt _ (Nat.two_pow_pos _), ?_⟩
  · rw [Nat.div_div_eq_div_mul, ← pow_add, Nat.div_lt_iff_lt_mul (Nat.two_pow_pos _)]
    refine h.trans_eq ?_
    rw [pow_add, pow_add, pow_one, pow_add]
    ring
  · rw [pattern, Nat.div_add_mod', Nat.div_add_mod']

end BinaryFormat
