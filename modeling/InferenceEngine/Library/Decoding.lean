import Mathlib.Data.List.Basic
import Mathlib.Data.List.Infix

/-!
# Decoding one token at a time

The output of a decoder that always appends the token `next` picks for the context so far, cut after
the first stop token or after `n` tokens. `Running` is the invariant of an unfinished output: what is
left of the decoding is the decoding of the longer context.
-/

namespace Decoding

variable {T : Type}

/-- Append what `next` picks, at most `n` times, up to and including the first stop token. -/
def decode (next : List T → Option T) (stop : T → Bool) : Nat → List T → List T
  | 0, _ => []
  | n + 1, ctx =>
    match next ctx with
    | none => []
    | some t => if stop t then [t] else t :: decode next stop n (ctx ++ [t])

variable {next : List T → Option T} {stop : T → Bool} {n : Nat} {ctx out : List T} {t : T}

/-- Decoders that agree on the contexts of a kind, when every pick leads to a context of the kind. -/
theorem decode_congr {next' : List T → Option T} {stop' : T → Bool} {P : List T → Prop}
    (hnext : ∀ ctx, P ctx → next ctx = next' ctx)
    (hstop : ∀ ctx t, P ctx → next ctx = some t → stop t = stop' t ∧ P (ctx ++ [t])) (hctx : P ctx) :
    decode next stop n ctx = decode next' stop' n ctx := by
  induction n generalizing ctx with
  | zero => rfl
  | succ n ih =>
    rw [decode, decode, ← hnext ctx hctx]
    cases hpick : next ctx with
    | none => rfl
    | some t =>
      obtain ⟨hsame, hmore⟩ := hstop ctx t hctx hpick
      dsimp only
      rw [hsame, ih hmore]

theorem decode_snoc (h : decode next (fun _ => false) n ctx = out) (hlen : out.length = n)
    (hnext : next (ctx ++ out) = some t) : decode next (fun _ => false) (n + 1) ctx = out ++ [t] := by
  induction n generalizing ctx out with
  | zero =>
    obtain rfl := List.eq_nil_of_length_eq_zero hlen
    rw [List.append_nil] at hnext
    rw [decode, hnext]
    rfl
  | succ n ih =>
    rw [decode] at h ⊢
    cases hctx : next ctx with
    | none =>
      rw [hctx] at h
      subst h
      cases hlen
    | some u =>
      rw [hctx] at h
      subst h
      simp only [Bool.false_eq_true, if_false, List.length_cons, Nat.add_right_cancel_iff] at hlen ⊢
      rw [ih rfl hlen (by simpa using hnext)]
      rfl

/-- `out` is what has been decoded of `n` tokens after `ctx`, and decoding goes on. -/
structure Running (next : List T → Option T) (stop : T → Bool) (n : Nat) (ctx out : List T) : Prop where
  length_lt : out.length < n
  decode_eq : decode next stop n ctx = out ++ decode next stop (n - out.length) (ctx ++ out)

namespace Running

theorem nil (h : 0 < n) : Running next stop n ctx [] := ⟨by simpa using h, by simp⟩

theorem isPrefix (h : Running next stop n ctx out) : out <+: decode next stop n ctx :=
  ⟨_, h.decode_eq.symm⟩

/-- A token that is no stop token and not the last one leaves the decoding running. -/
theorem snoc (h : Running next stop n ctx out) (hnext : next (ctx ++ out) = some t)
    (hstop : stop t = false) (hlen : out.length + 1 < n) : Running next stop n ctx (out ++ [t]) := by
  refine ⟨by simpa using hlen, ?_⟩
  obtain ⟨k, hk⟩ : ∃ k, n - out.length = k + 1 := ⟨n - out.length - 1, by omega⟩
  have hk' : n - (out ++ [t]).length = k := by
    simp only [List.length_append, List.length_singleton]
    omega
  rw [h.decode_eq, hk, hk', decode, hnext]
  simp [hstop]

theorem last (h : Running next stop n ctx out) (hnext : next (ctx ++ out) = some t)
    (hlast : stop t = true ∨ n ≤ out.length + 1) : decode next stop n ctx = out ++ [t] := by
  obtain ⟨k, hk⟩ : ∃ k, n - out.length = k + 1 := ⟨n - out.length - 1, by have := h.length_lt; omega⟩
  rw [h.decode_eq, hk, decode, hnext]
  cases hs : stop t with
  | true => simp [hs]
  | false =>
    have hk0 : k = 0 := by
      rcases hlast with hl | hl
      · rw [hs] at hl
        cases hl
      · omega
    simp [hs, hk0, decode]

end Running

end Decoding
