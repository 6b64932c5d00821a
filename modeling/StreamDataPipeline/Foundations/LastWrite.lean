/- A log of keyed entries, read as a map in which the last entry of a key counts. -/

import Mathlib.Data.List.Induction
import Mathlib.Tactic.Common

set_option autoImplicit false
set_option relaxedAutoImplicit false

namespace StreamDataPipeline.Foundations.LastWrite

universe u v

variable {E : Type u} {K : Type v} [DecidableEq K] (key : E → K)

/-- The last entry of the log under a key. -/
def lastWrite (log : List E) (k : K) : Option E := log.reverse.find? fun e => key e = k

variable {key}

@[simp] theorem lastWrite_nil (k : K) : lastWrite key [] k = none := rfl

theorem lastWrite_append (log more : List E) (k : K) :
    lastWrite key (log ++ more) k = (lastWrite key more k).or (lastWrite key log k) := by
  rw [lastWrite, List.reverse_append, List.find?_append]
  rfl

theorem lastWrite_singleton (e : E) (k : K) :
    lastWrite key [e] k = if key e = k then some e else none := by
  by_cases h : key e = k <;> simp [lastWrite, h]

theorem lastWrite_concat (log : List E) (e : E) (k : K) :
    lastWrite key (log ++ [e]) k = if key e = k then some e else lastWrite key log k := by
  rw [lastWrite_append, lastWrite_singleton]
  split_ifs <;> simp

theorem lastWrite_key {log : List E} {k : K} {e : E} (h : lastWrite key log k = some e) :
    key e = k := by
  simpa using List.find?_some h

theorem lastWrite_mem {log : List E} {k : K} {e : E} (h : lastWrite key log k = some e) :
    e ∈ log := List.mem_reverse.mp (List.mem_of_find?_eq_some h)

theorem lastWrite_map {E' : Type u} {key' : E' → K} (f : E → E') (same : ∀ e, key' (f e) = key e)
    (log : List E) (k : K) : lastWrite key' (log.map f) k = (lastWrite key log k).map f := by
  have tests : ((fun e => decide (key' e = k)) ∘ f) = fun e => decide (key e = k) := by
    funext e
    rw [Function.comp_apply, same]
  rw [lastWrite, lastWrite, ← List.map_reverse, List.find?_map, tests]

theorem lastWrite_of_nodup {log : List E} (nodup : (log.map key).Nodup) {k : K} {e : E} :
    lastWrite key log k = some e ↔ e ∈ log ∧ key e = k := by
  refine ⟨fun h => ⟨lastWrite_mem h, lastWrite_key h⟩, ?_⟩
  rintro ⟨mem, rfl⟩
  induction log using List.reverseRecOn with
  | nil => cases mem
  | append_singleton log last ih =>
      rw [lastWrite_concat]
      rw [List.map_append, List.nodup_append] at nodup
      rcases List.mem_append.mp mem with old | new
      · have other : key last ≠ key e := fun equal =>
          nodup.2.2 (key e) (List.mem_map_of_mem old) (key last) (by simp) equal.symm
        rw [if_neg other]
        exact ih nodup.1 old
      · rw [List.mem_singleton.mp new, if_pos rfl]

theorem lastWrite_eq_none {log : List E} {k : K} :
    lastWrite key log k = none ↔ k ∉ log.map key := by
  rw [lastWrite, List.find?_eq_none]
  simp

section Current

variable (key)

/-- The entries that count, in the order of the log. -/
def current : List E → List E
  | [] => []
  | e :: log => if key e ∈ log.map key then current log else e :: current log

theorem current_sublist (log : List E) : (current key log).Sublist log := by
  induction log with
  | nil => exact .slnil
  | cons e log ih =>
      rw [current]
      split_ifs
      · exact ih.cons e
      · exact ih.cons_cons e

theorem current_eq_nil {log : List E} : current key log = [] ↔ log = [] := by
  induction log with
  | nil => simp [current]
  | cons e log ih =>
      rw [current]
      split_ifs with later
      · have nonempty : log ≠ [] := by
          rintro rfl
          cases later
        simp [ih, nonempty]
      · simp

theorem current_nodup (log : List E) : ((current key log).map key).Nodup := by
  induction log with
  | nil => exact List.nodup_nil
  | cons e log ih =>
      rw [current]
      split_ifs with later
      · exact ih
      · rw [List.map_cons, List.nodup_cons]
        exact ⟨fun mem => later (((current_sublist key log).map key).subset mem), ih⟩

theorem lastWrite_eq_some {log : List E} {k : K} {e : E} :
    lastWrite key log k = some e ↔ e ∈ current key log ∧ key e = k := by
  induction log with
  | nil => simp [current]
  | cons first log ih =>
      have split : lastWrite key ([first] ++ log) k = _ := lastWrite_append [first] log k
      rw [List.singleton_append, lastWrite_singleton] at split
      rw [split, current]
      by_cases later : key first ∈ log.map key
      · rw [if_pos later, ← ih]
        cases found : lastWrite key log k with
        | some e' => rfl
        | none =>
            have other : key first ≠ k := by
              rintro rfl
              exact lastWrite_eq_none.mp found later
            rw [if_neg other]
            rfl
      · rw [if_neg later, List.mem_cons, or_and_right, ← ih]
        by_cases same : key first = k
        · subst same
          rw [if_pos rfl, lastWrite_eq_none.mpr later]
          simp only [Option.none_or, Option.some.injEq, reduceCtorEq, or_false]
          exact ⟨fun equal => ⟨equal.symm, equal ▸ rfl⟩, fun both => both.1.symm⟩
        · rw [if_neg same, Option.or_none]
          have other : ¬ (e = first ∧ key e = k) := by
            rintro ⟨rfl, here⟩
            exact same here
          simp [other]

theorem current_of_nodup {log : List E} (nodup : (log.map key).Nodup) : current key log = log := by
  induction log with
  | nil => rfl
  | cons e log ih =>
      rw [List.map_cons, List.nodup_cons] at nodup
      rw [current, if_neg nodup.1, ih nodup.2]

theorem current_map {E' : Type u} {K' : Type v} [DecidableEq K'] {key' : E' → K'} (f : E → E')
    (same : ∀ a b, key' (f a) = key' (f b) ↔ key a = key b) (log : List E) :
    current key' (log.map f) = (current key log).map f := by
  induction log with
  | nil => rfl
  | cons e log ih =>
      have keys : key' (f e) ∈ (log.map f).map key' ↔ key e ∈ log.map key := by
        simp only [List.map_map, List.mem_map, Function.comp_apply, same]
      rw [List.map_cons, current, current, ih]
      simp only [keys]
      split_ifs <;> rfl

end Current

end StreamDataPipeline.Foundations.LastWrite
