/- Values collected under their keys, in the order in which the keys first occur. -/

import StreamDataPipeline.Foundations.FirstDistinct

set_option autoImplicit false
set_option relaxedAutoImplicit false

namespace StreamDataPipeline.Foundations.Grouping

open FirstDistinct

universe u v

variable {κ : Type u} {β : Type v} [DecidableEq κ]

/-- A value goes behind those of its key. -/
def addTo (k : κ) (b : β) : List (κ × List β) → List (κ × List β)
  | [] => [(k, [b])]
  | (key, values) :: rest =>
      if key = k then (key, values ++ [b]) :: rest else (key, values) :: addTo k b rest

def group (pairs : List (κ × β)) : List (κ × List β) :=
  pairs.foldl (fun groups p => addTo p.1 p.2 groups) []

def distinct (keys : List κ) : List κ := keys.eraseDups

def valuesOf (pairs : List (κ × β)) (k : κ) : List β :=
  (pairs.filter fun p => p.1 = k).map Prod.snd

theorem valuesOf_concat (pairs : List (κ × β)) (p : κ × β) (k : κ) :
    valuesOf (pairs ++ [p]) k =
      if p.1 = k then valuesOf pairs k ++ [p.2] else valuesOf pairs k := by
  rw [valuesOf, List.filter_append, List.map_append, ← valuesOf]
  split_ifs with same <;> simp [same]

theorem addTo_map {keys : List κ} (nodup : keys.Nodup) (values : κ → List β) (k : κ) (b : β) :
    addTo k b (keys.map fun key => (key, values key)) =
      if k ∈ keys then keys.map fun key => (key, if k = key then values key ++ [b] else values key)
      else (keys.map fun key => (key, values key)) ++ [(k, [b])] := by
  induction keys with
  | nil => rfl
  | cons first keys ih =>
      rw [List.nodup_cons] at nodup
      rw [List.map_cons, addTo]
      by_cases same : first = k
      · subst same
        rw [if_pos rfl, if_pos List.mem_cons_self, List.map_cons, if_pos rfl]
        congr 1
        apply List.map_congr_left
        intro key mem
        have other : first ≠ key := fun equal => nodup.1 (equal ▸ mem)
        rw [if_neg other]
      · rw [if_neg same, ih nodup.2]
        by_cases mem : k ∈ keys
        · rw [if_pos mem, if_pos (List.mem_cons_of_mem first mem), List.map_cons,
            if_neg (Ne.symm same)]
        · have absent : k ∉ first :: keys := by
            rw [List.mem_cons, not_or]
            exact ⟨Ne.symm same, mem⟩
          rw [if_neg mem, if_neg absent, List.cons_append]

theorem distinct_nodup (keys : List κ) : (distinct keys).Nodup := nodup_eraseDups keys

theorem mem_distinct {keys : List κ} {k : κ} : k ∈ distinct keys ↔ k ∈ keys := List.mem_eraseDups

/-- The groups hold the values of every key in order. -/
theorem group_eq (pairs : List (κ × β)) :
    group pairs = (distinct (pairs.map Prod.fst)).map fun k => (k, valuesOf pairs k) := by
  induction pairs using List.reverseRecOn with
  | nil => rfl
  | append_singleton pairs p ih =>
      have step : group (pairs ++ [p]) = addTo p.1 p.2 (group pairs) := by
        rw [group, List.foldl_append]
        rfl
      rw [step, ih, distinct, distinct, addTo_map (nodup_eraseDups _), List.map_append,
        List.map_singleton, eraseDups_concat]
      simp only [List.mem_eraseDups, valuesOf_concat]
      split_ifs with mem
      · rfl
      · rw [List.map_append, List.map_singleton, if_pos rfl]
        congr 1
        · apply List.map_congr_left
          intro key here
          have other : p.1 ≠ key := by
            rintro rfl
            exact mem (List.mem_eraseDups.mp here)
          rw [if_neg other]
        · have none : valuesOf pairs p.1 = [] := by
            rw [valuesOf, List.map_eq_nil_iff, List.filter_eq_nil_iff]
            intro other there same
            exact mem (List.mem_map.mpr ⟨other, there, by simpa using same⟩)
          rw [none, List.nil_append]

end StreamDataPipeline.Foundations.Grouping
