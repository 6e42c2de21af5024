import Mathlib.Data.List.Basic

/-!
# Checks and accesses

A computation that may throw, and that may touch elements outside a buffer. Its path is a list of checks, which
throw when they fail, and of accesses, which are faults when they do not fit. It stays in its buffers exactly
when every access fits that the checks and accesses in front of it let it reach.
-/

/-- What a computation can end in instead of a result. -/
inductive Fault (E : Type) where
  | thrown (error : E)
  | outOfBounds
  deriving DecidableEq

abbrev Checked (E A : Type) := Except (Fault E) A

namespace Checked

variable {E A B I : Type}

def throwing (e : E) : Checked E A := .error (.thrown e)

def require (passes : Prop) [Decidable passes] (e : E) : Checked E Unit :=
  if passes then .ok () else throwing e

def access (fits : Prop) [Decidable fits] : Checked E Unit :=
  if fits then .ok () else .error .outOfBounds

def loop (n : Nat) (body : Nat → Checked E Unit) : Checked E Unit := forM (List.range n) body

/-- No element outside a buffer is touched. -/
def Safe (x : Checked E A) : Prop := x ≠ .error .outOfBounds

instance : DecidablePred (Safe : Checked E A → Prop)
  | .ok _ => isTrue fun h => by cases h
  | .error (.thrown _) => isTrue fun h => by cases h
  | .error .outOfBounds => isFalse fun h => h rfl

/-! ### Paths -/

inductive Stage where
  | check (passes : Prop)
  | touch (fits : Prop)

/-- The accesses of a path fit, as far as the checks in front of them pass. -/
def AllFit : List Stage → Prop
  | [] => True
  | .check passes :: rest => passes → AllFit rest
  | .touch fits :: rest => fits ∧ AllFit rest

/-- The path is taken to its end. -/
def AllPass : List Stage → Prop
  | [] => True
  | .check passes :: rest => passes ∧ AllPass rest
  | .touch fits :: rest => fits ∧ AllPass rest

@[simp] theorem allPass_nil : AllPass [] := trivial

@[simp] theorem allPass_check {P : Prop} {rest : List Stage} : AllPass (.check P :: rest) ↔ P ∧ AllPass rest := Iff.rfl

@[simp] theorem allPass_touch {P : Prop} {rest : List Stage} : AllPass (.touch P :: rest) ↔ P ∧ AllPass rest := Iff.rfl

@[simp] theorem allPass_append {s t : List Stage} : AllPass (s ++ t) ↔ AllPass s ∧ AllPass t := by
  induction s with
  | nil => exact (and_iff_right trivial).symm
  | cons stage s ih => cases stage <;> simp only [List.cons_append, AllPass, ih, and_assoc]

theorem allFit_append {s t : List Stage} : AllFit (s ++ t) ↔ AllFit s ∧ (AllPass s → AllFit t) := by
  induction s with
  | nil => simp only [List.nil_append, AllFit, AllPass, true_and, true_implies]
  | cons stage s ih =>
    cases stage with
    | check P =>
      simp only [List.cons_append, AllFit, AllPass, ih]
      exact ⟨fun h => ⟨fun hp => (h hp).1, fun hp => (h hp.1).2 hp.2⟩, fun h hp => ⟨h.1 hp, fun hs => h.2 ⟨hp, hs⟩⟩⟩
    | touch P =>
      simp only [List.cons_append, AllFit, AllPass, ih, and_assoc]
      exact and_congr_right fun hp => and_congr_right fun _ => imp_congr_left (and_iff_right hp).symm

/-- Paths that fit on their own fit one after the other. -/
theorem allFit_flatten {paths : List (List Stage)} (h : ∀ path ∈ paths, AllFit path) : AllFit paths.flatten := by
  induction paths with
  | nil => trivial
  | cons path paths ih =>
    rw [List.flatten_cons, allFit_append]
    exact ⟨h path List.mem_cons_self, fun _ => ih fun rest hmem => h rest (List.mem_cons_of_mem path hmem)⟩

theorem allFit_flatMap {as : List I} {path : I → List Stage} (h : ∀ a ∈ as, AllFit (path a)) :
    AllFit (as.flatMap path) := by
  rw [List.flatMap_def]
  apply allFit_flatten
  intro stages hmem
  obtain ⟨a, ha, rfl⟩ := List.mem_map.mp hmem
  exact h a ha

theorem allPass_flatMap {as : List I} {path : I → List Stage} :
    AllPass (as.flatMap path) ↔ ∀ a ∈ as, AllPass (path a) := by
  induction as with
  | nil => exact iff_of_true trivial (List.forall_mem_nil _)
  | cons a as ih => rw [List.flatMap_cons, allPass_append, ih, List.forall_mem_cons]

/-- `x` takes the path, and returns `a` at its end. -/
structure Staged (x : Checked E A) (path : List Stage) (a : A) : Prop where
  safe : Safe x ↔ AllFit path
  result : ∀ b, x = .ok b ↔ AllPass path ∧ b = a

variable {x : Checked E A} {f : A → Checked E B} {path rest : List Stage} {a : A} {b : B} {P Q : Prop}

theorem staged_ok (a : A) : Staged (.ok a : Checked E A) [] a where
  safe := iff_of_true (fun h => by cases h) trivial
  result b := by rw [Except.ok.injEq, eq_comm, and_iff_right allPass_nil]

theorem staged_check (hpass : P → Staged x rest a) (hfail : ¬P → ∃ e, x = throwing e) :
    Staged x (.check P :: rest) a := by
  by_cases hP : P
  · constructor
    · rw [(hpass hP).safe]
      exact ⟨fun h _ => h, fun h => h hP⟩
    · intro b
      rw [(hpass hP).result, allPass_check, and_iff_right hP]
  · obtain ⟨e, rfl⟩ := hfail hP
    constructor
    · exact iff_of_true (fun h => by cases h) fun h => absurd h hP
    · exact fun b => iff_of_false (fun h => by cases h) fun h => hP h.1.1

theorem staged_touch (hfit : P → Staged x rest a) (hfault : ¬P → x = .error .outOfBounds) :
    Staged x (.touch P :: rest) a := by
  by_cases hP : P
  · constructor
    · rw [(hfit hP).safe]
      exact (and_iff_right hP).symm
    · intro b
      rw [(hfit hP).result, allPass_touch, and_iff_right hP]
  · rw [hfault hP]
    constructor
    · exact iff_of_false (fun h => h rfl) fun h => hP h.1
    · exact fun b => iff_of_false (fun h => by cases h) fun h => hP h.1.1

theorem require_bind [Decidable P] {e : E} {f : Unit → Checked E A} (h : P) : (require P e >>= f) = f () := by
  rw [require, if_pos h]
  rfl

theorem require_bind_of_not [Decidable P] {e : E} {f : Unit → Checked E A} (h : ¬P) :
    (require P e >>= f) = throwing e := by
  rw [require, if_neg h]
  rfl

/-- A check in front of the rest. -/
theorem staged_require [Decidable Q] {e : E} {f : Unit → Checked E A} (h : Q ↔ P) (hrest : P → Staged (f ()) rest a) :
    Staged (require Q e >>= f) (.check P :: rest) a := by
  apply staged_check
  · intro hP
    rw [require_bind (h.mpr hP)]
    exact hrest hP
  · exact fun hP => ⟨e, require_bind_of_not fun hQ => hP (h.mp hQ)⟩

theorem Staged.bind (hx : Staged x path a) (hf : AllPass path → Staged (f a) rest b) :
    Staged (x >>= f) (path ++ rest) b := by
  cases hrun : x with
  | ok a' =>
    obtain ⟨hpass, rfl⟩ := (hx.result a').mp hrun
    have hfit : AllFit path := hx.safe.mp (by rw [hrun]; exact fun h => by cases h)
    have hrest := hf hpass
    change Staged (f a') (path ++ rest) b
    constructor
    · rw [allFit_append, hrest.safe]
      exact ⟨fun h => ⟨hfit, fun _ => h⟩, fun h => h.2 hpass⟩
    · intro c
      rw [hrest.result, allPass_append, and_iff_right hpass]
  | error e =>
    have hnot : ¬AllPass path := by
      intro hpass
      have hok := (hx.result a).mpr ⟨hpass, rfl⟩
      rw [hrun] at hok
      cases hok
    have hsafe : Safe (.error e : Checked E B) ↔ Safe x := by
      rw [hrun, Safe, Safe, ne_eq, ne_eq, Except.error.injEq, Except.error.injEq]
    change Staged (.error e) (path ++ rest) b
    constructor
    · rw [hsafe, hx.safe, allFit_append]
      exact ⟨fun h => ⟨h, fun hpass => absurd hpass hnot⟩, And.left⟩
    · intro c
      rw [allPass_append]
      exact iff_of_false (fun h => by cases h) fun h => hnot h.1.1

/-- What follows neither checks nor touches anything. -/
theorem Staged.followed (hx : Staged x path a) (hf : f a = .ok b) : Staged (x >>= f) path b := by
  have hbind := hx.bind fun _ => (hf ▸ staged_ok b : Staged (f a) [] b)
  rwa [List.append_nil] at hbind

/-- A loop that takes the paths of its turns one after another. -/
theorem staged_forM {is : List I} {body : I → Checked E Unit} {path : I → List Stage}
    (h : ∀ i ∈ is, Staged (body i) (path i) ()) : Staged (forM is body) (is.flatMap path) () := by
  induction is with
  | nil => exact staged_ok ()
  | cons i is ih =>
    rw [List.forM_cons, List.flatMap_cons]
    exact (h i List.mem_cons_self).bind fun _ => ih fun j hj => h j (List.mem_cons_of_mem i hj)

theorem staged_foldlM {is : List I} {body : A → I → Checked E A} {path : I → List Stage}
    (h : ∀ i ∈ is, Staged (body a i) (path i) a) : Staged (is.foldlM body a) (is.flatMap path) a := by
  induction is with
  | nil => exact staged_ok a
  | cons i is ih =>
    rw [List.foldlM_cons, List.flatMap_cons]
    exact (h i List.mem_cons_self).bind fun _ => ih fun j hj => h j (List.mem_cons_of_mem i hj)

/-! ### Accesses without checks -/

/-- `x` does nothing but touch elements, which fit exactly under `P`. -/
structure Touches (x : Checked E Unit) (P : Prop) : Prop where
  ok : P → x = .ok ()
  fault : ¬P → x = .error .outOfBounds

variable {y : Checked E Unit}

theorem touches_ok : Touches (.ok () : Checked E Unit) True := ⟨fun _ => rfl, fun h => absurd trivial h⟩

theorem touches_access [Decidable P] : Touches (access P : Checked E Unit) P := ⟨fun h => if_pos h, fun h => if_neg h⟩

theorem Touches.congr {x : Checked E Unit} (hx : Touches x P) (h : P ↔ Q) : Touches x Q :=
  ⟨fun hq => hx.ok (h.mpr hq), fun hq => hx.fault fun hp => hq (h.mp hp)⟩

theorem Touches.bind {x : Checked E Unit} (hx : Touches x P) (hy : P → Touches y Q) :
    Touches (x >>= fun _ => y) (P ∧ Q) := by
  by_cases hP : P
  · rw [hx.ok hP]
    exact (hy hP).congr (and_iff_right hP).symm
  · rw [hx.fault hP]
    exact ⟨fun h => absurd h.1 hP, fun _ => rfl⟩

theorem touches_forM {is : List I} {body : I → Checked E Unit} {P : I → Prop}
    (h : ∀ i ∈ is, Touches (body i) (P i)) : Touches (forM is body) (∀ i ∈ is, P i) := by
  induction is with
  | nil => exact touches_ok.congr (iff_of_true trivial (List.forall_mem_nil _))
  | cons i is ih =>
    rw [List.forM_cons]
    apply ((h i List.mem_cons_self).bind fun _ => ih fun j hj => h j (List.mem_cons_of_mem i hj)).congr
    exact List.forall_mem_cons.symm

theorem touches_loop {n : Nat} {body : Nat → Checked E Unit} {P : Nat → Prop}
    (h : ∀ i < n, Touches (body i) (P i)) : Touches (loop n body) (∀ i < n, P i) :=
  (touches_forM fun i hi => h i (List.mem_range.mp hi)).congr (by simp only [List.mem_range])

theorem Touches.alone {x : Checked E Unit} (hx : Touches x P) : Staged x [.touch P] () := by
  apply staged_touch
  · intro hP
    rw [hx.ok hP]
    exact staged_ok ()
  · exact hx.fault

/-- Accesses in front of the rest. -/
theorem Touches.staged {x : Checked E Unit} {f : Unit → Checked E A} (hx : Touches x P)
    (hrest : P → Staged (f ()) rest a) : Staged (x >>= f) (.touch P :: rest) a := by
  apply staged_touch
  · intro hP
    rw [hx.ok hP]
    exact hrest hP
  · intro hP
    rw [hx.fault hP]
    rfl

end Checked
