import InferenceEngine.KvCache.BlockAllocator
import InferenceEngine.Model.Weights

/-!
# What the model throws

The computations of the model throw errors of their own, never those of the block allocator. An
allocator error that leaves `forward_batch` therefore comes from an operation on the allocator.
-/

namespace InferenceEngine

/-- Whatever the computation throws, the block allocator does not throw it. -/
def Foreign {α : Type} (x : Except Error α) : Prop := ∀ e, x = .error e → e ∉ BlockAllocator.errors

namespace Foreign

variable {α β : Type}

theorem ok (a : α) : Foreign (.ok a) := nofun

theorem bind {x : Except Error α} {f : α → Except Error β} (hx : Foreign x) (hf : ∀ a, Foreign (f a)) :
    Foreign (x >>= f) := by
  cases x with
  | error e => exact fun e' h => hx e' (by simpa [Bind.bind, Except.bind] using h)
  | ok a => exact hf a

theorem ite {P : Prop} [Decidable P] {x y : Except Error α} (hx : Foreign x) (hy : Foreign y) :
    Foreign (if P then x else y) := by
  split
  · exact hx
  · exact hy

theorem error {e : Error} (h : e ∉ BlockAllocator.errors) : Foreign (.error e : Except Error α) := by
  rintro _ ⟨⟩
  exact h

end Foreign

namespace Kernels

variable {W Q K : Type} (kn : Kernels W Q K)

theorem foreign_embedding (weight : W) (ids : List Int) : Foreign (kn.embedding weight ids) := by
  unfold embedding
  induction ids with
  | nil => exact .ok _
  | cons id ids ih =>
    rw [List.mapM_cons]
    exact .bind (.ite (.error (by decide)) (.ok _)) fun _ => .bind ih fun _ => .ok _

theorem foreign_ropeInplace (x : Rows K) (nHeads headDim : Nat) (theta : K) (positions : List Nat) :
    Foreign (kn.ropeInplace x nHeads headDim theta positions) :=
  .ite (.error (by decide)) (.ok _)

theorem foreign_attentionRows (q k v : Rows K) (nHeads nKvHeads headDim queryOffset : Nat) :
    Foreign (kn.attentionRows q k v nHeads nKvHeads headDim queryOffset) :=
  .ite (.error (by decide)) (.ite (.error (by decide)) (.ite (.error (by decide)) (.ok _)))

end Kernels

namespace Model

variable {W Q K : Type} (M : Model W Q K)

theorem foreign_get (name : String) : Foreign (M.get name) := by
  unfold Model.get
  split
  · exact .ok _
  · refine .error fun h => ?_
    -- the first letters differ
    have hhead : ("safetensors: missing tensor '" ++ name ++ "'").toList.head? = some 's' := by
      simp [String.toList_append]
    simp only [BlockAllocator.errors, List.mem_cons, Error.runtimeError.injEq, List.not_mem_nil,
      or_false] at h
    rcases h with h | h | h <;> rw [h] at hhead <;> revert hhead <;> decide

theorem foreign_linearW (x : Rows K) (name : String) (bias : Option W) : Foreign (M.linearW x name bias) := by
  unfold linearW
  split
  · exact .ok _
  · exact .bind (M.foreign_get _) fun _ => .ok _

theorem foreign_project (l : Nat) (normed : Rows K) (name : String) : Foreign (M.project l normed name) :=
  .ite (.bind (M.foreign_get _) fun _ => M.foreign_linearW _ _ _) (M.foreign_linearW _ _ _)

theorem foreign_layerInputs (l : Nat) (positions : List Nat) (x : Rows K) :
    Foreign (M.layerInputs l positions x) :=
  .bind (M.foreign_get _) fun _ => .bind (M.foreign_project _ _ _) fun _ =>
    .bind (M.foreign_project _ _ _) fun _ => .bind (M.foreign_project _ _ _) fun _ =>
      .bind (M.kernels.foreign_ropeInplace _ _ _ _ _) fun _ =>
        .bind (M.kernels.foreign_ropeInplace _ _ _ _ _) fun _ => .ok _

theorem foreign_attend (q k v : Rows K) (queryOffset : Nat) : Foreign (M.attend q k v queryOffset) :=
  M.kernels.foreign_attentionRows _ _ _ _ _ _ _

theorem foreign_layerOutput (l : Nat) (x attn : Rows K) : Foreign (M.layerOutput l x attn) :=
  .bind (M.foreign_linearW _ _ _) fun _ => .bind (M.foreign_get _) fun _ =>
    .bind (M.foreign_linearW _ _ _) fun _ => .bind (M.foreign_linearW _ _ _) fun _ =>
      .bind (M.foreign_linearW _ _ _) fun _ => .ok _

theorem foreign_finalNorm (x : Rows K) : Foreign (M.finalNorm x) :=
  .bind (M.foreign_get _) fun _ => .ok _

end Model

end InferenceEngine
