import Mathlib.Data.List.Nodup

/-!
# Dictionaries

A dictionary in insertion order. Assigning to a key it has leaves the key where it is, so the keys are
never repeated.
-/

/-- A dictionary with keys `A` and values `B`. -/
structure Dict (A B : Type) where
  entries : List (A × B)
  nodup : (entries.map Prod.fst).Nodup

namespace Dict

variable {A B : Type} [DecidableEq A]

def empty : Dict A B := ⟨[], List.nodup_nil⟩

def keys (d : Dict A B) : List A := d.entries.map Prod.fst

def get (d : Dict A B) (a : A) : Option B := d.entries.lookup a

def set (d : Dict A B) (a : A) (b : B) : Dict A B :=
  if h : a ∈ d.keys then
    ⟨d.entries.map fun e => if e.1 = a then (a, b) else e, by
      rw [List.map_map]
      refine (List.map_congr_left ?_ ▸ d.nodup :)
      intro e _
      by_cases he : e.1 = a <;> simp [he]⟩
  else ⟨d.entries ++ [(a, b)], by
    rw [List.map_append]
    exact List.Nodup.append d.nodup (List.nodup_singleton a) (List.disjoint_singleton.mpr h)⟩

def pop (d : Dict A B) (a : A) : Dict A B :=
  ⟨d.entries.filter fun e => e.1 ≠ a, d.nodup.sublist (List.filter_sublist.map Prod.fst)⟩

@[simp] theorem get_empty (a : A) : (empty : Dict A B).get a = none := rfl

theorem mem_keys {d : Dict A B} {a : A} : a ∈ d.keys ↔ (d.get a).isSome := by
  simp only [keys, get, List.lookup_isSome_iff, List.mem_map, beq_iff_eq]
  exact exists_congr fun e => and_congr_right fun _ => eq_comm

theorem get_eq_none {d : Dict A B} {a : A} (h : a ∉ d.keys) : d.get a = none := by
  rw [mem_keys, Option.not_isSome_iff_eq_none] at h
  exact h

theorem lookup_cons_of_ne {e : A × B} {entries : List (A × B)} {a : A} (h : a ≠ e.1) :
    List.lookup a (e :: entries) = entries.lookup a := by
  rw [List.lookup_cons, beq_false_of_ne h]

theorem lookup_replace {entries : List (A × B)} {a : A} (b : B) (h : a ∈ entries.map Prod.fst) :
    (entries.map fun e => if e.1 = a then (a, b) else e).lookup a = some b := by
  induction entries with
  | nil => cases h
  | cons e entries ih =>
    by_cases he : e.1 = a
    · simp [he]
    · have hne : a ≠ e.1 := fun h => he h.symm
      rw [List.map_cons, if_neg he, lookup_cons_of_ne hne]
      exact ih ((List.mem_cons.mp h).resolve_left hne)

theorem lookup_replace_of_ne {entries : List (A × B)} {a a' : A} (b : B) (h : a' ≠ a) :
    (entries.map fun e => if e.1 = a then (a, b) else e).lookup a' = entries.lookup a' := by
  induction entries with
  | nil => rfl
  | cons e entries ih =>
    rw [List.map_cons]
    by_cases he : e.1 = a
    · have hne : a' ≠ e.1 := by rwa [he]
      rw [if_pos he, lookup_cons_of_ne h, lookup_cons_of_ne hne, ih]
    · rw [if_neg he, List.lookup_cons, List.lookup_cons, ih]

theorem lookup_filter_of_ne {entries : List (A × B)} {a a' : A} (h : a' ≠ a) :
    (entries.filter fun e => e.1 ≠ a).lookup a' = entries.lookup a' := by
  induction entries with
  | nil => rfl
  | cons e entries ih =>
    by_cases he : e.1 = a
    · have hne : a' ≠ e.1 := by rwa [he]
      rw [List.filter_cons_of_neg (by simpa using he), lookup_cons_of_ne hne, ih]
    · rw [List.filter_cons_of_pos (by simpa using he), List.lookup_cons, List.lookup_cons, ih]

@[simp] theorem get_set_self (d : Dict A B) (a : A) (b : B) : (d.set a b).get a = some b := by
  rw [set]
  split
  · exact lookup_replace b ‹_›
  · rename_i h
    have hnone : d.entries.lookup a = none := get_eq_none h
    rw [get, List.lookup_append, hnone]
    simp

theorem get_set_of_ne (d : Dict A B) {a a' : A} (b : B) (h : a' ≠ a) : (d.set a b).get a' = d.get a' := by
  rw [set]
  split
  · exact lookup_replace_of_ne b h
  · rw [get, List.lookup_append, lookup_cons_of_ne h, List.lookup_nil, Option.or_none]
    rfl

@[simp] theorem get_pop_self (d : Dict A B) (a : A) : (d.pop a).get a = none := by
  apply get_eq_none
  simp [keys, pop]

theorem get_pop_of_ne (d : Dict A B) {a a' : A} (h : a' ≠ a) : (d.pop a).get a' = d.get a' :=
  lookup_filter_of_ne h

end Dict
