/- The first items of a sequence that differ from all items before them. -/

import Mathlib.Data.Finset.Card
import Mathlib.Data.List.Induction
import Mathlib.Tactic.Common

/-!
A collection with a fixed number of places takes every item that it does not hold while it
has a place left. What it holds is a prefix of the sequence of first occurrences.
-/

set_option autoImplicit false
set_option relaxedAutoImplicit false

namespace StreamDataPipeline.Foundations.FirstDistinct

universe u

variable {α : Type u} [DecidableEq α]

/-- The first `places` distinct items, in order of first occurrence. -/
def firstDistinct (places : Nat) (xs : List α) : List α := xs.eraseDups.take places

/-- One more item comes to a collection with so many places. -/
def arrive (places : Nat) (held : List α) (x : α) : List α :=
  if x ∈ held ∨ places ≤ held.length then held else held ++ [x]

variable {places : Nat} {held : List α} {x : α}

theorem arrive_held (mem : x ∈ held) : arrive places held x = held := if_pos (.inl mem)

theorem arrive_full (full : places ≤ held.length) : arrive places held x = held :=
  if_pos (.inr full)

theorem arrive_new (absent : x ∉ held) (room : held.length < places) :
    arrive places held x = held ++ [x] := if_neg (by simp [absent, room])

theorem foldl_arrive_full (full : places ≤ held.length) (xs : List α) :
    xs.foldl (arrive places) held = held := by
  induction xs with
  | nil => rfl
  | cons x xs ih => rw [List.foldl_cons, arrive_full full, ih]

theorem mem_foldl_arrive_of_mem (mem : x ∈ held) (xs : List α) :
    x ∈ xs.foldl (arrive places) held := by
  induction xs generalizing held with
  | nil => exact mem
  | cons y ys ih =>
      apply ih
      rw [arrive]
      split_ifs
      · exact mem
      · exact List.mem_append_left [y] mem

theorem eraseDups_concat (xs : List α) (x : α) :
    (xs ++ [x]).eraseDups = if x ∈ xs then xs.eraseDups else xs.eraseDups ++ [x] := by
  rw [List.eraseDups_append]
  by_cases mem : x ∈ xs
  · simp [List.removeAll, mem]
  · simp [List.removeAll, mem, List.eraseDups_cons]

theorem nodup_eraseDups (xs : List α) : xs.eraseDups.Nodup := by
  induction xs using List.reverseRecOn with
  | nil => simp
  | append_singleton xs x ih =>
      rw [eraseDups_concat]
      split_ifs with mem
      · exact ih
      · rw [← List.concat_eq_append, List.nodup_concat, List.mem_eraseDups]
        exact ⟨mem, ih⟩

/-- What stands in the places after a sequence has arrived at the empty collection. -/
theorem foldl_arrive (places : Nat) (xs : List α) :
    xs.foldl (arrive places) [] = firstDistinct places xs := by
  induction xs using List.reverseRecOn with
  | nil => simp [firstDistinct]
  | append_singleton xs x ih =>
      rw [List.foldl_append, List.foldl_cons, List.foldl_nil, ih, firstDistinct, firstDistinct,
        eraseDups_concat]
      by_cases room : xs.eraseDups.length < places
      · -- nothing has been cut off, so held means seen
        have whole : xs.eraseDups.take places = xs.eraseDups := List.take_of_length_le room.le
        rw [whole]
        by_cases mem : x ∈ xs
        · rw [if_pos mem, whole, arrive_held (List.mem_eraseDups.mpr mem)]
        · have absent : x ∉ xs.eraseDups := mem ∘ List.mem_eraseDups.mp
          rw [if_neg mem, arrive_new absent room, List.take_of_length_le]
          rw [List.length_append, List.length_singleton]
          omega
      · rw [not_lt] at room
        have full : places ≤ (xs.eraseDups.take places).length := by
          rw [List.length_take, Nat.min_eq_left room]
        rw [arrive_full full]
        split_ifs
        · rfl
        · rw [List.take_append_of_le_length room]

theorem firstDistinct_append (xs ys : List α) :
    firstDistinct places (xs ++ ys) = ys.foldl (arrive places) (firstDistinct places xs) := by
  rw [← foldl_arrive, List.foldl_append, foldl_arrive]

theorem mem_firstDistinct {xs : List α} (few : xs.toFinset.card ≤ places) :
    x ∈ firstDistinct places xs ↔ x ∈ xs := by
  have same : xs.eraseDups.toFinset = xs.toFinset := by
    ext y
    rw [List.mem_toFinset, List.mem_toFinset, List.mem_eraseDups]
  have short : xs.eraseDups.length ≤ places := by
    rwa [← List.toFinset_card_of_nodup (nodup_eraseDups xs), same]
  rw [firstDistinct, List.take_of_length_le short, List.mem_eraseDups]

theorem firstDistinct_of_nodup {xs : List α} (nodup : xs.Nodup) (fits : xs.length ≤ places) :
    firstDistinct places xs = xs := by
  induction xs using List.reverseRecOn with
  | nil => simp [firstDistinct]
  | append_singleton xs x ih =>
      rw [List.length_append, List.length_singleton] at fits
      obtain ⟨absent, front⟩ := (List.nodup_concat xs x).mp (List.concat_eq_append ▸ nodup)
      rw [firstDistinct_append, ih front (Nat.le_of_succ_le fits), List.foldl_cons, List.foldl_nil,
        arrive_new absent fits]

end StreamDataPipeline.Foundations.FirstDistinct
