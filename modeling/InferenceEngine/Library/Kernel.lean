import InferenceEngine.Library.Loop
import Mathlib.Data.List.Nodup
import Mathlib.Data.List.Perm.Basic
import Mathlib.Logic.Function.Basic

/-!
# Kernels

A launch runs one action per thread on a memory of cells, in an order that nobody fixes. When no cell has
two writers, and what a thread writes does not look at the cells of other writers, the order does not
matter: a cell ends up as its own writer would leave it, and a cell without a writer stays.
-/

namespace Kernel

variable {C V : Type}

/-- The memory after the threads of `order` have acted, one after another. -/
def launch (act : Nat → (C → V) → C → V) (order : List Nat) (memory : C → V) : C → V :=
  order.foldl (fun memory i => act i memory) memory

/-- Threads that do not see each other. -/
structure Independent (act : Nat → (C → V) → C → V) (writes : Nat → C → Prop) : Prop where
  frame : ∀ i memory c, ¬writes i c → act i memory c = memory c
  disjoint : ∀ i j c, writes i c → writes j c → i = j
  own : ∀ i memory memory', (∀ c, (∀ j, writes j c → j = i) → memory c = memory' c) →
    ∀ c, writes i c → act i memory c = act i memory' c

/-- In which order the threads of a launch act, for every launch and number of threads. -/
structure Schedule where
  order : Nat → Nat → List Nat
  perm : ∀ launch threads, (order launch threads).Perm (List.range threads)

theorem Schedule.nodup (sched : Schedule) (launch threads : Nat) : (sched.order launch threads).Nodup :=
  (sched.perm launch threads).nodup_iff.mpr List.nodup_range

@[simp] theorem Schedule.mem_order (sched : Schedule) {launch threads i : Nat} :
    i ∈ sched.order launch threads ↔ i < threads := by
  rw [(sched.perm launch threads).mem_iff, List.mem_range]

def Schedule.ascending : Schedule := ⟨fun _ threads => List.range threads, fun _ _ => List.Perm.refl _⟩

variable {act : Nat → (C → V) → C → V} {writes : Nat → C → Prop}

@[simp] theorem launch_cons (i : Nat) (order : List Nat) (memory : C → V) :
    launch act (i :: order) memory = launch act order (act i memory) := rfl

theorem Independent.launch_of_not_writes (h : Independent act writes) {order : List Nat} {c : C}
    (hc : ∀ i ∈ order, ¬writes i c) (memory : C → V) : launch act order memory c = memory c := by
  induction order generalizing memory with
  | nil => rfl
  | cons i order ih =>
    rw [launch_cons, ih (fun j hj => hc j (List.mem_cons_of_mem i hj)),
      h.frame i memory c (hc i List.mem_cons_self)]

/-- **A cell ends up as its own writer would leave it**, whatever the order. -/
theorem Independent.launch_of_writes (h : Independent act writes) {order : List Nat} (hnodup : order.Nodup)
    {i : Nat} (hi : i ∈ order) {c : C} (hc : writes i c) (memory : C → V) :
    launch act order memory c = act i memory c := by
  induction order generalizing memory with
  | nil => exact absurd hi List.not_mem_nil
  | cons j order ih =>
    rw [List.nodup_cons] at hnodup
    rw [launch_cons]
    by_cases hij : i = j
    · subst hij
      apply h.launch_of_not_writes
      intro k hk hkc
      exact hnodup.1 (h.disjoint i k c hc hkc ▸ hk)
    · rw [ih hnodup.2 ((List.mem_cons.mp hi).resolve_left hij)]
      -- thread `j` has changed none of the cells thread `i` may look at
      apply h.own i _ _ ?_ c hc
      intro c' hc'
      apply h.frame
      intro hj
      exact hij (hc' j hj).symm

/-- A cell that no thread touches. -/
theorem launch_frame {c : C} {order : List Nat} (hframe : ∀ i ∈ order, ∀ memory, act i memory c = memory c)
    (memory : C → V) : launch act order memory c = memory c := by
  induction order generalizing memory with
  | nil => rfl
  | cons i order ih =>
    rw [launch_cons, ih fun j hj => hframe j (List.mem_cons_of_mem i hj), hframe i List.mem_cons_self]

/-- A cell in which whoever touches it leaves the same value. -/
theorem launch_value {c : C} {value : V} {order : List Nat} {i : Nat} (hi : i ∈ order)
    (hvalue : ∀ memory, act i memory c = value)
    (hframe : ∀ j ∈ order, ∀ memory, act j memory c = value ∨ act j memory c = memory c)
    (memory : C → V) : launch act order memory c = value := by
  have hkept : ∀ {order : List Nat}, (∀ j ∈ order, ∀ memory, act j memory c = value ∨ act j memory c = memory c) →
      ∀ memory, memory c = value → launch act order memory c = value := by
    intro order
    induction order with
    | nil => exact fun _ _ h => h
    | cons j order ih =>
      intro hframe memory h
      apply ih fun k hk => hframe k (List.mem_cons_of_mem j hk)
      exact (hframe j List.mem_cons_self memory).elim id fun hj => hj.trans h
  obtain ⟨front, back, rfl⟩ := List.append_of_mem hi
  rw [launch, List.foldl_append, List.foldl_cons]
  apply hkept
  · exact fun j hj => hframe j (List.mem_append_right front (List.mem_cons_of_mem i hj))
  · exact hvalue _

/-- Threads that do not see each other may act in any order. -/
theorem Independent.launch_perm (h : Independent act writes) {order order' : List Nat}
    (hperm : order.Perm order') (hnodup : order.Nodup) (memory : C → V) :
    launch act order memory = launch act order' memory := by
  funext c
  by_cases hc : ∃ i ∈ order, writes i c
  · obtain ⟨i, hi, hic⟩ := hc
    rw [h.launch_of_writes hnodup hi hic,
      h.launch_of_writes (hperm.nodup_iff.mp hnodup) (hperm.mem_iff.mp hi) hic]
  · simp only [not_exists, not_and] at hc
    rw [h.launch_of_not_writes hc, h.launch_of_not_writes fun i hi => hc i (hperm.mem_iff.mpr hi)]

theorem independent_of_local (frame : ∀ i memory c, ¬writes i c → act i memory c = memory c)
    (disjoint : ∀ i j c, writes i c → writes j c → i = j)
    (own : ∀ i memory memory', (∀ c, writes i c → memory c = memory' c) →
      ∀ c, writes i c → act i memory c = act i memory' c) : Independent act writes where
  frame := frame
  disjoint := disjoint
  own i memory memory' h := own i memory memory' fun c hc => h c fun j hj => disjoint j i c hj hc

section Store

variable [DecidableEq C] (guard : Nat → Prop) [DecidablePred guard] (address : Nat → C) (value : Nat → V)

/-- The threads that pass a guard store one value each, at addresses of their own. -/
theorem independent_store (hinj : ∀ i j, guard i → guard j → address i = address j → i = j) :
    Independent (fun i memory => if guard i then Function.update memory (address i) (value i) else memory)
      (fun i c => guard i ∧ c = address i) where
  frame i memory c hc := by
    split
    · rename_i hi
      exact Function.update_of_ne (fun heq => hc ⟨hi, heq⟩) _ _
    · rfl
  disjoint i j c hi hj := hinj i j hi.1 hj.1 (hi.2.symm.trans hj.2)
  own i memory memory' _ c hc := by
    rw [if_pos hc.1, if_pos hc.1, hc.2, Function.update_self, Function.update_self]

/-- The threads that pass a guard store a range of values each, and the ranges do not overlap. -/
theorem independent_storeRange {n : Nat} (base : Nat → Nat) (values : Nat → Nat → V)
    (hdisjoint : ∀ i j c, guard i → guard j → base i ≤ c ∧ c < base i + n → base j ≤ c ∧ c < base j + n → i = j) :
    Independent (fun i memory => if guard i then Loop.storeRange (base i) n (values i) memory else memory)
      (fun i c => guard i ∧ base i ≤ c ∧ c < base i + n) where
  frame i memory c hc := by
    split
    · rename_i hi
      exact if_neg fun hrange => hc ⟨hi, hrange⟩
    · rfl
  disjoint i j c hi hj := hdisjoint i j c hi.1 hj.1 hi.2 hj.2
  own i memory memory' _ c hc := by
    rw [if_pos hc.1, if_pos hc.1, Loop.storeRange, Loop.storeRange, if_pos hc.2, if_pos hc.2]

end Store

/-- A kernel of one thread for every cell: whatever the order, every cell gets a new value from its old one. -/
theorem launch_mapRange (n : Nat) (f : Nat → V → V) {order : List Nat} (hnodup : order.Nodup)
    (hcover : ∀ i < n, i ∈ order) (memory : Nat → V) :
    launch (fun i memory => if i < n then Function.update memory i (f i (memory i)) else memory) order memory =
      Loop.mapRange n f memory := by
  have hindependent : Independent
      (fun i (memory : Nat → V) => if i < n then Function.update memory i (f i (memory i)) else memory)
      fun i c => i < n ∧ c = i := by
    apply independent_of_local
    · intro i memory c hc
      split
      · next hi => exact Function.update_of_ne (fun heq => hc ⟨hi, heq⟩) _ _
      · rfl
    · intro i j c hi hj
      exact hi.2.symm.trans hj.2
    · intro i memory memory' h c hc
      obtain ⟨hi, rfl⟩ := hc
      rw [if_pos hi, if_pos hi, Function.update_self, Function.update_self, h c ⟨hi, rfl⟩]
  funext c
  unfold Loop.mapRange
  split
  · next hc =>
    rw [hindependent.launch_of_writes hnodup (hcover c hc) ⟨hc, rfl⟩, if_pos hc, Function.update_self]
  · next hc =>
    apply hindependent.launch_of_not_writes
    intro i _ hi
    exact hc (hi.2 ▸ hi.1)

theorem launch_update (sched : Schedule) {round threads t : Nat} (ht : t < threads) (value : Nat → V)
    (memory : Nat → V) :
    launch (fun t memory => Function.update memory t (value t)) (sched.order round threads) memory t = value t := by
  have hstore := independent_store (fun _ => True) id value fun i j _ _ h => h
  simp only [if_true, id] at hstore
  rw [hstore.launch_of_writes (sched.nodup round threads) (sched.mem_order.mpr ht) ⟨trivial, rfl⟩,
    Function.update_self]

end Kernel
