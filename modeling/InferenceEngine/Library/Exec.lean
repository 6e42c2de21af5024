import Mathlib.Logic.Basic
import Mathlib.Data.List.Basic

/-!
# Programs with a state that survives an exception

A C++ method that throws leaves its object as it was when the exception started, so the programs of
this development are `EStateM` computations: both outcomes carry a state. `wp` reads a postcondition
for each outcome back to the initial state. Its lemmas execute a program symbolically, and the two
loop rules turn an invariant of the body into one of the loop.
-/

namespace Exec

variable {ε σ τ α β : Type}

/-- From `s`, `x` returns into `Q` or throws into `E`. -/
def wp (x : EStateM ε σ α) (Q : α → σ → Prop) (E : ε → σ → Prop) (s : σ) : Prop :=
  match x s with
  | .ok a s' => Q a s'
  | .error e s' => E e s'

instance (x : EStateM ε σ α) (Q : α → σ → Prop) (E : ε → σ → Prop) (s : σ)
    [∀ a s', Decidable (Q a s')] [∀ e s', Decidable (E e s')] : Decidable (wp x Q E s) := by
  unfold wp
  cases x s <;> infer_instance

/-- The state a run leaves behind, whether it returned or threw. -/
def finalState (x : EStateM ε σ α) (s : σ) : σ :=
  match x s with
  | .ok _ s' => s'
  | .error _ s' => s'

/-- Whether the run returned. -/
def returns (x : EStateM ε σ α) (s : σ) : Bool :=
  match x s with
  | .ok _ _ => true
  | .error _ _ => false

/-- What the run returned or threw. -/
def outcome (x : EStateM ε σ α) (s : σ) : Except ε α :=
  match x s with
  | .ok a _ => .ok a
  | .error e _ => .error e

/-- A computation that does not touch the state, run as a program. -/
def lift (x : Except ε α) : EStateM ε σ α := fun s =>
  match x with
  | .ok a => .ok a s
  | .error e => .error e s

/-- A program on a component of the state. -/
def zoom (get : σ → τ) (set : τ → σ → σ) (x : EStateM ε τ α) : EStateM ε σ α := fun s =>
  match x (get s) with
  | .ok a t => .ok a (set t s)
  | .error e t => .error e (set t s)

section Rules

variable {Q Q' : α → σ → Prop} {E E' : ε → σ → Prop} {s : σ}

theorem wp_iff {x : EStateM ε σ α} :
    wp x Q E s ↔ (∀ a s', x s = .ok a s' → Q a s') ∧ ∀ e s', x s = .error e s' → E e s' := by
  unfold wp
  cases x s <;> simp

theorem wp_mono {x : EStateM ε σ α} (h : wp x Q E s) (hQ : ∀ a s', Q a s' → Q' a s')
    (hE : ∀ e s', E e s' → E' e s') : wp x Q' E' s := by
  rw [wp_iff] at h ⊢
  exact ⟨fun a s' hx => hQ a s' (h.1 a s' hx), fun e s' hx => hE e s' (h.2 e s' hx)⟩

theorem wp_true (x : EStateM ε σ α) : wp x (fun _ _ => True) (fun _ _ => True) s := by
  rw [wp_iff]
  exact ⟨fun _ _ _ => trivial, fun _ _ _ => trivial⟩

theorem wp_and {x : EStateM ε σ α} (h : wp x Q E s) (h' : wp x Q' E' s) :
    wp x (fun a s' => Q a s' ∧ Q' a s') (fun e s' => E e s' ∧ E' e s') s := by
  rw [wp_iff] at h h' ⊢
  exact ⟨fun a s' hx => ⟨h.1 a s' hx, h'.1 a s' hx⟩, fun e s' hx => ⟨h.2 e s' hx, h'.2 e s' hx⟩⟩

theorem wp_ok {x : EStateM ε σ α} {a : α} {s' : σ} (h : wp x Q E s) (hx : x s = .ok a s') : Q a s' :=
  (wp_iff.mp h).1 a s' hx

theorem wp_error {x : EStateM ε σ α} {e : ε} {s' : σ} (h : wp x Q E s) (hx : x s = .error e s') :
    E e s' :=
  (wp_iff.mp h).2 e s' hx

theorem wp_of_ok {x : EStateM ε σ α} {a : α} {s' : σ} (hx : x s = .ok a s') (hQ : Q a s') : wp x Q E s := by
  unfold wp
  rwa [hx]

theorem wp_returns {x : EStateM ε σ α} (h : wp x Q (fun _ _ => False) s) :
    ∃ a s', x s = .ok a s' ∧ Q a s' := by
  unfold wp at h
  cases hx : x s with
  | ok a s' => exact ⟨a, s', rfl, by simpa [hx] using h⟩
  | error e s' => simp [hx] at h

theorem wp_throws {x : EStateM ε σ α} (h : wp x (fun _ _ => False) E s) : ∃ e s', x s = .error e s' ∧ E e s' := by
  unfold wp at h
  cases hx : x s with
  | ok a s' => simp [hx] at h
  | error e s' => exact ⟨e, s', rfl, by simpa [hx] using h⟩

/-- What holds after either outcome holds of the state left behind. -/
theorem wp_finalState {x : EStateM ε σ α} {P : σ → Prop} (h : wp x (fun _ => P) (fun _ => P) s) :
    P (finalState x s) := by
  unfold wp at h
  unfold finalState
  cases hx : x s <;> simpa [hx] using h

theorem outcome_of_wp {x : EStateM ε σ α} {r : Except ε α}
    (h : wp x (fun a _ => r = .ok a) (fun e _ => r = .error e) s) : outcome x s = r := by
  unfold wp at h
  unfold outcome
  cases hx : x s <;> simp [hx] at h <;> rw [h]

theorem ok_of_outcome {x : EStateM ε σ α} {a : α} (h : outcome x s = .ok a) : x s = .ok a (finalState x s) := by
  unfold outcome at h
  unfold finalState
  cases hx : x s <;> simp [hx] at h ⊢
  exact h

theorem outcome_of_ok {x : EStateM ε σ α} {a : α} {s' : σ} (h : x s = .ok a s') : outcome x s = .ok a := by
  rw [outcome, h]

theorem finalState_of_ok {x : EStateM ε σ α} {a : α} {s' : σ} (h : x s = .ok a s') : finalState x s = s' := by
  rw [finalState, h]

theorem error_of_outcome {x : EStateM ε σ α} {e : ε} (h : outcome x s = .error e) :
    x s = .error e (finalState x s) := by
  unfold outcome at h
  unfold finalState
  cases hx : x s <;> simp [hx] at h ⊢
  exact h

/-! A run that goes on from where the first step left off. -/

theorem get_bind (f : σ → EStateM ε σ β) : (get >>= f) s = f s s := rfl

theorem modify_bind (g : σ → σ) (f : PUnit → EStateM ε σ β) : (modify g >>= f) s = f ⟨⟩ (g s) := rfl

theorem bind_of_ok {x : EStateM ε σ α} {a : α} {s' : σ} (hx : x s = .ok a s') (f : α → EStateM ε σ β) :
    (x >>= f) s = f a s' := by
  simp only [bind, EStateM.bind, hx]

theorem bind_of_error {x : EStateM ε σ α} {e : ε} {s' : σ} (hx : x s = .error e s') (f : α → EStateM ε σ β) :
    (x >>= f) s = .error e s' := by
  simp only [bind, EStateM.bind, hx]

theorem lift_ok_bind (a : α) (f : α → EStateM ε σ β) : (lift (.ok a) >>= f) = f a := rfl

theorem lift_bind_of_ok {x : Except ε α} {a : α} (hx : x = .ok a) (f : α → EStateM ε σ β) :
    (lift x >>= f) s = f a s := by
  rw [hx]
  rfl

theorem lift_bind_of_error {x : Except ε α} {e : ε} (hx : x = .error e) (f : α → EStateM ε σ β) :
    (lift x >>= f) s = .error e s := by
  rw [hx]
  rfl

@[simp] theorem wp_pure (a : α) : wp (pure a) Q E s ↔ Q a s := Iff.rfl

@[simp] theorem wp_throw (e : ε) : wp (throw e : EStateM ε σ α) Q E s ↔ E e s := Iff.rfl

@[simp] theorem wp_get {Q : σ → σ → Prop} : wp (get : EStateM ε σ σ) Q E s ↔ Q s s := Iff.rfl

@[simp] theorem wp_modify {Q : PUnit → σ → Prop} (f : σ → σ) :
    wp (modify f : EStateM ε σ PUnit) Q E s ↔ Q ⟨⟩ (f s) := Iff.rfl

@[simp] theorem wp_set {Q : PUnit → σ → Prop} (t : σ) :
    wp (set t : EStateM ε σ PUnit) Q E s ↔ Q ⟨⟩ t := Iff.rfl

@[simp] theorem wp_bind {Q : β → σ → Prop} (x : EStateM ε σ α) (f : α → EStateM ε σ β) :
    wp (x >>= f) Q E s ↔ wp x (fun a s' => wp (f a) Q E s') E s := by
  simp only [wp, bind, EStateM.bind]
  cases x s <;> rfl

@[simp] theorem wp_map {Q : β → σ → Prop} (x : EStateM ε σ α) (f : α → β) :
    wp (f <$> x) Q E s ↔ wp x (fun a s' => Q (f a) s') E s := by
  simp only [wp, Functor.map, EStateM.map]
  cases x s <;> rfl

theorem wp_ite {b : Prop} [Decidable b] {x y : EStateM ε σ α} (hx : b → wp x Q E s)
    (hy : ¬b → wp y Q E s) : wp (if b then x else y) Q E s := by
  by_cases h : b
  · rw [if_pos h]
    exact hx h
  · rw [if_neg h]
    exact hy h

theorem wp_lift {x : Except ε α} :
    wp (lift x) Q E s ↔ (∀ a, x = .ok a → Q a s) ∧ ∀ e, x = .error e → E e s := by
  unfold wp lift
  cases x <;> simp

@[simp] theorem wp_lift_ok (a : α) : wp (lift (.ok a) : EStateM ε σ α) Q E s ↔ Q a s := Iff.rfl

@[simp] theorem wp_lift_error (e : ε) : wp (lift (.error e) : EStateM ε σ α) Q E s ↔ E e s := Iff.rfl

@[simp] theorem wp_zoom (get : σ → τ) (set : τ → σ → σ) (x : EStateM ε τ α) :
    wp (zoom get set x) Q E s ↔
      wp x (fun a t => Q a (set t s)) (fun e t => E e (set t s)) (get s) := by
  unfold wp zoom
  cases x (get s) <;> rfl

/-- A loop over a list, with an invariant of the elements still to come. -/
theorem wp_foldlM {I : List α → β → σ → Prop} {E : ε → σ → Prop} {f : β → α → EStateM ε σ β}
    (body : ∀ x xs b s, I (x :: xs) b s → wp (f b x) (I xs) E s) :
    ∀ xs b s, I xs b s → wp (xs.foldlM f b) (I []) E s := by
  intro xs
  induction xs with
  | nil => exact fun b s h => h
  | cons x xs ih =>
    intro b s h
    rw [List.foldlM_cons, wp_bind]
    exact wp_mono (body x xs b s h) (fun b' s' h' => ih b' s' h') (fun _ _ h' => h')

theorem wp_foldlM_range {I : Nat → β → σ → Prop} {E : ε → σ → Prop} {f : β → Nat → EStateM ε σ β}
    (n : Nat) (body : ∀ k b s, k < n → I k b s → wp (f b k) (I (k + 1)) E s) {b : β} {s : σ}
    (h : I 0 b s) : wp ((List.range n).foldlM f b) (I n) E s := by
  induction n with
  | zero => exact h
  | succ n ih =>
    rw [List.range_succ, List.foldlM_append, wp_bind]
    refine wp_mono (ih fun k b s hk => body k b s (Nat.lt_succ_of_lt hk)) ?_ fun _ _ h' => h'
    intro b' s' h'
    simpa using body n b' s' (Nat.lt_succ_self n) h'

/-- A loop without an accumulator, with an invariant of the elements still to come. -/
theorem wp_forM {I : List α → σ → Prop} {E : ε → σ → Prop} {f : α → EStateM ε σ PUnit}
    (body : ∀ x xs s, I (x :: xs) s → wp (f x) (fun _ => I xs) E s) :
    ∀ (xs : List α) s, I xs s → wp (forM xs f) (fun _ => I []) E s := by
  intro xs
  induction xs with
  | nil => exact fun s h => h
  | cons x xs ih =>
    intro s h
    rw [List.forM_cons, wp_bind]
    exact wp_mono (body x xs s h) (fun _ s' h' => ih s' h') (fun _ _ h' => h')

end Rules

section Simulation

/-- `x` does to states what `y` does to their images. -/
def Simulates (image : σ → τ) (x : EStateM ε σ α) (y : EStateM ε τ α) : Prop :=
  ∀ s (Q : α → τ → Prop) (E : ε → τ → Prop), wp y Q E (image s) →
    wp x (fun a s' => Q a (image s')) (fun e s' => E e (image s')) s

variable {image : σ → τ}

theorem Simulates.bind {x : EStateM ε σ α} {y : EStateM ε τ α} {f : α → EStateM ε σ β}
    {g : α → EStateM ε τ β} (h : Simulates image x y) (hf : ∀ a, Simulates image (f a) (g a)) :
    Simulates image (x >>= f) (y >>= g) := by
  intro s Q E hy
  rw [wp_bind] at hy ⊢
  exact wp_mono (h s _ _ hy) (fun a s' hs' => hf a s' Q E hs') fun _ _ he => he

theorem simulates_modify {f : σ → σ} {g : τ → τ} (h : ∀ s, image (f s) = g (image s)) :
    Simulates image (modify f : EStateM ε σ PUnit) (modify g) := by
  intro s Q E hy
  rw [wp_modify] at hy ⊢
  rwa [h]

theorem Simulates.forM {f : α → EStateM ε σ PUnit} {g : α → EStateM ε τ PUnit}
    (h : ∀ a, Simulates image (f a) (g a)) (as : List α) :
    Simulates image (forM as f) (forM as g) := by
  induction as with
  | nil => exact fun s Q E hy => hy
  | cons a as ih =>
    rw [List.forM_cons, List.forM_cons]
    exact (h a).bind fun _ => ih

/-- A loop whose accumulator is seen through a view. -/
theorem Simulates.foldlM {γ : Type} {view : β → γ} {f : β → α → EStateM ε σ β} {g : γ → α → EStateM ε τ γ}
    (as : List α) (h : ∀ b, ∀ a ∈ as, Simulates image (view <$> f b a) (g (view b) a)) (b : β) :
    Simulates image (view <$> as.foldlM f b) (as.foldlM g (view b)) := by
  induction as generalizing b with
  | nil => exact fun s Q E hy => hy
  | cons a as ih =>
    intro s Q E hy
    rw [List.foldlM_cons, wp_bind] at hy
    rw [List.foldlM_cons, wp_map, wp_bind]
    have hbody := h b a List.mem_cons_self s _ _ hy
    rw [wp_map] at hbody
    apply wp_mono hbody ?_ fun _ _ he => he
    intro b' s' hs'
    exact (wp_map _ _).mp (ih (fun b a ha => h b a (List.mem_cons_of_mem _ ha)) b' s' Q E hs')

end Simulation

theorem foldlM_ok {f : β → α → Except ε β} {g : β → α → β} {as : List α} {b : β}
    (h : ∀ a ∈ as, ∀ b, f b a = .ok (g b a)) : as.foldlM f b = .ok (as.foldl g b) := by
  induction as generalizing b with
  | nil => rfl
  | cons a as ih =>
    rw [List.foldlM_cons, h a List.mem_cons_self b]
    exact ih fun a ha => h a (List.mem_cons_of_mem _ ha)

section Framing

/-- A part of the state that a program leaves alone, whether it returns or throws. -/
def Leaves (part : σ → τ) (x : EStateM ε σ α) : Prop :=
  ∀ s, wp x (fun _ s' => part s' = part s) (fun _ s' => part s' = part s) s

variable {part : σ → τ}

theorem leaves_pure (a : α) : Leaves part (pure a : EStateM ε σ α) := fun _ => rfl

theorem leaves_throw (e : ε) : Leaves part (throw e : EStateM ε σ α) := fun _ => rfl

theorem leaves_throw_bind (e : ε) (f : α → EStateM ε σ β) : Leaves part (throw e >>= f) := fun _ => rfl

theorem leaves_get : Leaves part (get : EStateM ε σ σ) := fun _ => rfl

theorem leaves_modify {f : σ → σ} (h : ∀ s, part (f s) = part s) :
    Leaves part (modify f : EStateM ε σ PUnit) := h

theorem leaves_lift (x : Except ε α) : Leaves part (lift x) := by
  intro s
  cases x with
  | error e => rfl
  | ok a => rfl

theorem Leaves.bind {x : EStateM ε σ α} {f : α → EStateM ε σ β} (h : Leaves part x)
    (hf : ∀ a, Leaves part (f a)) : Leaves part (x >>= f) := by
  intro s
  rw [wp_bind]
  apply wp_mono (h s)
  · intro a s' hs
    exact wp_mono (hf a s') (fun _ _ h' => h'.trans hs) fun _ _ h' => h'.trans hs
  · exact fun _ _ hs => hs

theorem Leaves.forM {f : α → EStateM ε σ PUnit} (h : ∀ a, Leaves part (f a)) (as : List α) :
    Leaves part (forM as f) := by
  induction as with
  | nil => exact leaves_pure _
  | cons a as ih =>
    rw [List.forM_cons]
    exact (h a).bind fun _ => ih

theorem Leaves.foldlM {γ : Type} {f : γ → α → EStateM ε σ γ} (h : ∀ c a, Leaves part (f c a)) (as : List α) (c : γ) :
    Leaves part (as.foldlM f c) := by
  induction as generalizing c with
  | nil => exact leaves_pure c
  | cons a as ih =>
    rw [List.foldlM_cons]
    exact (h c a).bind ih

theorem Leaves.mapM {f : α → EStateM ε σ β} (h : ∀ a, Leaves part (f a)) (as : List α) :
    Leaves part (as.mapM f) := by
  induction as with
  | nil =>
    rw [List.mapM_nil]
    exact leaves_pure _
  | cons a as ih =>
    rw [List.mapM_cons]
    exact (h a).bind fun _ => ih.bind fun _ => leaves_pure _

theorem leaves_zoom {ρ θ : Type} {sub : τ → ρ} {get : σ → τ} {set : τ → σ → σ} {x : EStateM ε τ α} {image : σ → θ}
    (h : Leaves sub x) (himage : ∀ s t, sub t = sub (get s) → image (set t s) = image s) :
    Leaves image (zoom get set x) := by
  intro s
  rw [wp_zoom]
  exact wp_mono (h (get s)) (fun _ t ht => himage s t ht) fun _ t ht => himage s t ht

/-- A program on a part of the state that is not looked at. -/
theorem leaves_zoom_apart {θ : Type} {get : σ → τ} {set : τ → σ → σ} {x : EStateM ε τ α} {image : σ → θ}
    (himage : ∀ s t, image (set t s) = image s) : Leaves image (zoom get set x) := by
  intro s
  rw [wp_zoom]
  exact wp_mono (wp_true x) (fun _ t _ => himage s t) fun _ t _ => himage s t

end Framing

section Following

variable {γ δ : Type}

/-- Whatever `y` returns, `x` returns something in the relation to it. -/
def Yields (S : α → β → Prop) (x : Except ε α) (y : Except ε β) : Prop :=
  ∀ b, y = .ok b → ∃ a, x = .ok a ∧ S a b

theorem Yields.ok {S : α → β → Prop} {a : α} {b : β} (h : S a b) :
    Yields S (.ok a : Except ε α) (.ok b) := by
  intro b' hb
  obtain rfl := Except.ok.inj hb
  exact ⟨a, rfl, h⟩

theorem Yields.bind {S : α → β → Prop} {S' : γ → δ → Prop} {x : Except ε α} {y : Except ε β}
    {f : α → Except ε γ} {g : β → Except ε δ} (h : Yields S x y) (hf : ∀ a b, S a b → Yields S' (f a) (g b)) :
    Yields S' (x >>= f) (y >>= g) := by
  intro d hd
  cases hy : y with
  | error e =>
    rw [hy] at hd
    cases hd
  | ok b =>
    obtain ⟨a, hx, hab⟩ := h b hy
    rw [hy] at hd
    rw [hx]
    exact hf a b hab d hd

/-- The same for programs: from states in the relation into states in the relation. -/
def Follows (R : σ → τ → Prop) (S : α → β → Prop) (x : EStateM ε σ α) (y : EStateM ε τ β) : Prop :=
  ∀ s t, R s t → ∀ b t', y t = .ok b t' → ∃ a s', x s = .ok a s' ∧ S a b ∧ R s' t'

variable {R : σ → τ → Prop} {S : α → β → Prop}

theorem Follows.bind {S' : γ → δ → Prop} {x : EStateM ε σ α} {y : EStateM ε τ β} {f : α → EStateM ε σ γ}
    {g : β → EStateM ε τ δ} (h : Follows R S x y) (hf : ∀ a b, S a b → Follows R S' (f a) (g b)) :
    Follows R S' (x >>= f) (y >>= g) := by
  intro s t hst d t'' hd
  cases hy : y t with
  | error e t' =>
    rw [bind_of_error hy] at hd
    cases hd
  | ok b t' =>
    obtain ⟨a, s', hx, hab, hst'⟩ := h s t hst b t' hy
    rw [bind_of_ok hy] at hd
    rw [bind_of_ok hx]
    exact hf a b hab s' t' hst' d t'' hd

theorem follows_pure {a : α} {b : β} (h : S a b) :
    Follows R S (pure a : EStateM ε σ α) (pure b) := by
  intro s t hst b' t' hb
  cases hb
  exact ⟨a, s, rfl, h, hst⟩

theorem follows_lift {x : Except ε α} {y : Except ε β} (h : Yields S x y) : Follows R S (lift x) (lift y) := by
  intro s t hst b t' hb
  cases hy : y with
  | error e =>
    rw [hy] at hb
    cases hb
  | ok b' =>
    obtain ⟨a, hx, hab⟩ := h b' hy
    rw [hy] at hb
    cases hb
    rw [hx]
    exact ⟨a, s, rfl, hab, hst⟩

theorem follows_get : Follows R R (get : EStateM ε σ σ) get := by
  intro s t hst b t' hb
  cases hb
  exact ⟨s, s, rfl, hst, hst⟩

theorem follows_modify {f : σ → σ} {g : τ → τ} (h : ∀ s t, R s t → R (f s) (g t)) :
    Follows R Eq (modify f : EStateM ε σ PUnit) (modify g) := by
  intro s t hst b t' hb
  cases hb
  exact ⟨⟨⟩, f s, rfl, rfl, h s t hst⟩

/-- A program on a part of the state, which is all that it changes. -/
theorem follows_zoom {ρ : Type} {part : τ → ρ} {get : σ → τ} {set : τ → σ → σ} {x : EStateM ε τ α}
    (hx : Leaves part x) (hget : ∀ s t, R s t → get s = t)
    (hset : ∀ s t t', R s t → part t' = part t → R (set t' s) t') : Follows R Eq (zoom get set x) x := by
  intro s t hst a t' ha
  have hpart : part t' = part t := wp_ok (Q := fun _ t'' => part t'' = part t) (hx t) ha
  refine ⟨a, set t' s, ?_, rfl, hset s t t' hst hpart⟩
  rw [zoom, hget s t hst, ha]

/-- Programs on parts of the states that are in a relation of their own. -/
theorem Follows.zoom {ρ θ : Type} {part : ρ → θ → Prop} {get : σ → ρ} {set : ρ → σ → σ} {get' : τ → θ}
    {set' : θ → τ → τ} {x : EStateM ε ρ α} {y : EStateM ε θ β} (h : Follows part S x y)
    (hget : ∀ s t, R s t → part (get s) (get' t))
    (hset : ∀ s t u v, R s t → part u v → R (set u s) (set' v t)) :
    Follows R S (Exec.zoom get set x) (Exec.zoom get' set' y) := by
  intro s t hst b t' hb
  rw [Exec.zoom] at hb
  cases hy : y (get' t) with
  | error e v =>
    rw [hy] at hb
    cases hb
  | ok b' v =>
    rw [hy] at hb
    cases hb
    obtain ⟨a, u, hx, hab, huv⟩ := h (get s) (get' t) (hget s t hst) b v hy
    refine ⟨a, set u s, ?_, hab, hset s t u v hst huv⟩
    rw [Exec.zoom, hx]

theorem Follows.mono {S' : α → β → Prop} {x : EStateM ε σ α} {y : EStateM ε τ β} (h : Follows R S x y)
    (hS : ∀ a b, S a b → S' a b) : Follows R S' x y := by
  intro s t hst b t' hb
  obtain ⟨a, s', hx, hab, hst'⟩ := h s t hst b t' hb
  exact ⟨a, s', hx, hS a b hab, hst'⟩

theorem Simulates.follows {image : σ → τ} {x : EStateM ε σ α} {y : EStateM ε τ α} (h : Simulates image x y) :
    Follows (fun s t => image s = t) Eq x y := by
  intro s t hst a t' ha
  subst hst
  have hwp : wp y (fun b t'' => b = a ∧ t'' = t') (fun _ _ => False) (image s) := wp_of_ok ha ⟨rfl, rfl⟩
  obtain ⟨b, s', hx, hb, hs'⟩ := wp_returns (h s _ _ hwp)
  exact ⟨b, s', hx, hb, hs'⟩

/-- What a program that goes along returns may be chosen by what the other is known to return. -/
theorem Follows.strengthen {x : EStateM ε σ α} {y : EStateM ε τ β} {Q : β → Prop} (h : Follows R S x y)
    (hy : ∀ t, wp y (fun b _ => Q b) (fun _ _ => True) t) :
    Follows R (fun a b => S a b ∧ Q b) x y := by
  intro s t hst b t' hb
  obtain ⟨a, s', hx, hab, hst'⟩ := h s t hst b t' hb
  exact ⟨a, s', hx, ⟨hab, wp_ok (hy t) hb⟩, hst'⟩

theorem Follows.foldlM {S : γ → δ → Prop} {f : γ → α → EStateM ε σ γ} {g : δ → α → EStateM ε τ δ} (as : List α)
    (h : ∀ c d, S c d → ∀ a ∈ as, Follows R S (f c a) (g d a)) {c : γ} {d : δ} (hcd : S c d) :
    Follows R S (as.foldlM f c) (as.foldlM g d) := by
  induction as generalizing c d with
  | nil => exact follows_pure hcd
  | cons a as ih =>
    rw [List.foldlM_cons, List.foldlM_cons]
    apply (h c d hcd a List.mem_cons_self).bind
    intro c' d' hcd'
    exact ih (fun c d hcd a ha => h c d hcd a (List.mem_cons_of_mem _ ha)) hcd'

/-- A loop with a relation that speaks of the turns left. -/
theorem Follows.foldlM_left {S : List α → γ → δ → Prop} {f : γ → α → EStateM ε σ γ} {g : δ → α → EStateM ε τ δ}
    (h : ∀ a as c d, S (a :: as) c d → Follows R (S as) (f c a) (g d a)) (as : List α) {c : γ} {d : δ}
    (hcd : S as c d) : Follows R (S []) (as.foldlM f c) (as.foldlM g d) := by
  induction as generalizing c d with
  | nil => exact follows_pure hcd
  | cons a as ih =>
    rw [List.foldlM_cons, List.foldlM_cons]
    apply (h a as c d hcd).bind
    intro c' d' hcd'
    exact ih hcd'

theorem Follows.forM {f : α → EStateM ε σ PUnit} {g : α → EStateM ε τ PUnit} (h : ∀ a, Follows R Eq (f a) (g a))
    (as : List α) : Follows R Eq (forM as f) (forM as g) := by
  induction as with
  | nil => exact follows_pure rfl
  | cons a as ih =>
    rw [List.forM_cons, List.forM_cons]
    apply (h a).bind
    intro _ _ _
    exact ih

theorem Follows.mapM {S : γ → δ → Prop} {f : α → EStateM ε σ γ} {g : α → EStateM ε τ δ} (as : List α)
    (h : ∀ a ∈ as, Follows R S (f a) (g a)) :
    Follows R (List.Forall₂ S) (as.mapM f) (as.mapM g) := by
  induction as with
  | nil =>
    rw [List.mapM_nil, List.mapM_nil]
    exact follows_pure .nil
  | cons a as ih =>
    rw [List.mapM_cons, List.mapM_cons]
    apply (h a List.mem_cons_self).bind
    intro c d hcd
    apply (ih fun a ha => h a (List.mem_cons_of_mem _ ha)).bind
    intro cs ds hcds
    exact follows_pure (.cons hcd hcds)

end Following

/-! ### Calls one after the other -/

section Calls

/-- The state after the calls `f a`; the caller of a call that threw goes on with the state it left. -/
def afterCalls (f : α → EStateM ε σ β) (as : List α) (s : σ) : σ :=
  as.foldl (fun s a => finalState (f a) s) s

def outcomes (f : α → EStateM ε σ β) : List α → σ → List (Except ε β)
  | [], _ => []
  | a :: as, s => outcome (f a) s :: outcomes f as (finalState (f a) s)

variable {f : α → EStateM ε σ β} {s : σ}

theorem afterCalls_concat (as : List α) (a : α) :
    afterCalls f (as ++ [a]) s = finalState (f a) (afterCalls f as s) := by
  simp [afterCalls]

theorem outcomes_concat (as : List α) (a : α) :
    outcomes f (as ++ [a]) s = outcomes f as s ++ [outcome (f a) (afterCalls f as s)] := by
  induction as generalizing s with
  | nil => rfl
  | cons b as ih =>
    change outcome (f b) s :: outcomes f (as ++ [a]) (finalState (f b) s) = _
    rw [ih]
    rfl

/-- `g` does to images, and returns or throws on them, what `f` does on states with the invariant. -/
structure Mirrors (inv : σ → Prop) (image : σ → τ) (f : α → EStateM ε σ β)
    (g : α → EStateM ε τ β) : Prop where
  keeps : ∀ a s, inv s → inv (finalState (f a) s)
  state : ∀ a s, inv s → image (finalState (f a) s) = finalState (g a) (image s)
  outcome : ∀ a s, inv s → outcome (f a) s = outcome (g a) (image s)

variable {inv : σ → Prop} {image : σ → τ} {g : α → EStateM ε τ β}

theorem Mirrors.inv_afterCalls (h : Mirrors inv image f g) (hs : inv s) (as : List α) :
    inv (afterCalls f as s) := by
  induction as generalizing s with
  | nil => exact hs
  | cons a as ih => exact ih (h.keeps a s hs)

theorem Mirrors.image_afterCalls (h : Mirrors inv image f g) (hs : inv s) (as : List α) :
    image (afterCalls f as s) = afterCalls g as (image s) := by
  induction as generalizing s with
  | nil => rfl
  | cons a as ih =>
    change image (afterCalls f as (finalState (f a) s)) = afterCalls g as (finalState (g a) (image s))
    rw [ih (h.keeps a s hs), h.state a s hs]

theorem Mirrors.outcomes_eq (h : Mirrors inv image f g) (hs : inv s) (as : List α) :
    outcomes f as s = outcomes g as (image s) := by
  induction as generalizing s with
  | nil => rfl
  | cons a as ih =>
    rw [outcomes, outcomes, ih (h.keeps a s hs), h.state a s hs, h.outcome a s hs]

end Calls

end Exec
