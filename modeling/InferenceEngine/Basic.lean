import Mathlib.Algebra.Notation.Defs
import Mathlib.Data.List.Basic

/-!
# Exceptions and rows

The exceptions the engine throws, by their C++ class, and the unit its model code moves around: one
row of a row-major matrix. A 2-D tensor is the list of its rows. Scalars are of an arbitrary type `K`.
-/

namespace InferenceEngine

/-- The exception classes of the source, each with its message. -/
inductive Error where
  | invalidArgument (message : String)
  | runtimeError (message : String)
  | outOfRange (message : String)
  deriving DecidableEq, Repr

theorem bind_eq_ok {ε α β : Type} {x : Except ε α} {f : α → Except ε β} {b : β} :
    x >>= f = .ok b ↔ ∃ a, x = .ok a ∧ f a = .ok b := by
  cases x with
  | error e => simp [bind, Except.bind]
  | ok a => simp [bind, Except.bind]

theorem ok_bind {ε α β : Type} (a : α) (f : α → Except ε β) : (Except.ok a >>= f) = f a := rfl

theorem error_bind {ε α β : Type} (e : ε) (f : α → Except ε β) : (Except.error e >>= f) = .error e := rfl

theorem throw_bind {ε α β : Type} (e : ε) (f : α → Except ε β) : (throw e >>= f) = .error e := rfl

/-- What comes after a check that throws is reached when the check does not fire. -/
theorem throw_if_eq_ok {ε α β : Type} {P : Prop} [Decidable P] {e : ε} {f : α → Except ε β}
    {x : Except ε β} {b : β} : (if P then throw e >>= f else x) = .ok b ↔ ¬P ∧ x = .ok b := by
  by_cases h : P
  · simp [h, throw, throwThe, MonadExceptOf.throw, bind, Except.bind]
  · simp [h]

abbrev Row (K : Type) := List K

/-- A 2-D tensor, row by row. -/
abbrev Rows (K : Type) := List (Row K)

/-- `memcpy` of whole rows: `src` over the rows of `dst` from `off` on. -/
def copyRows {R : Type} (dst : List R) (off : Nat) (src : List R) : List R :=
  dst.take off ++ src ++ dst.drop (off + src.length)

def sliceRows {R : Type} (x : List R) (off n : Nat) : List R := (x.drop off).take n

def pointerTo {K : Type} [Zero K] (rows : Rows K) (i : Nat) : K := rows.flatten.getD i 0

def readRow {K : Type} (width : Nat) (buffer : Nat → K) (r : Nat) : Row K :=
  (List.range width).map fun e => buffer (r * width + e)

def readRows {K : Type} (width rows : Nat) (buffer : Nat → K) : Rows K :=
  (List.range rows).map (readRow width buffer)

end InferenceEngine
