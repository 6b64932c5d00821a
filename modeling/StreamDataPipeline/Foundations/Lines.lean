/- Splitting a sequence after every separator, as a line reader does. -/

import Mathlib.Data.List.TakeWhile
import Mathlib.Tactic.Common

/-!
`pieces` are what successive line reads return: every piece but possibly the
last ends with the separator, and only there does it hold one. `selected` is what
a filter writes.
-/

set_option autoImplicit false
set_option relaxedAutoImplicit false

namespace StreamDataPipeline.Foundations.Lines

universe u

variable {α : Type u} [DecidableEq α] (sep : α)

def pieces : List α → List (List α)
  | [] => []
  | x :: xs =>
      if x = sep then [x] :: pieces xs
      else match pieces xs with
        | [] => [[x]]
        | p :: ps => (x :: p) :: ps

/-- Nothing is left unfinished: the sequence is empty or ends with the separator. -/
def Closed (xs : List α) : Prop := xs = [] ∨ xs.getLast? = some sep

instance (xs : List α) : Decidable (Closed sep xs) := instDecidableOr

/-- The unfinished end: what follows the last separator. -/
def openTail (xs : List α) : List α := (xs.reverse.takeWhile (· ≠ sep)).reverse

/-- The finished part: everything up to and including the last separator. -/
def closedPart (xs : List α) : List α := (xs.reverse.dropWhile (· ≠ sep)).reverse

variable {sep}

theorem closedPart_append_openTail (xs : List α) : closedPart sep xs ++ openTail sep xs = xs := by
  rw [closedPart, openTail, ← List.reverse_append, List.takeWhile_append_dropWhile,
    List.reverse_reverse]

theorem sep_not_mem_openTail (xs : List α) : sep ∉ openTail sep xs := by
  intro h
  have := List.mem_takeWhile_imp (List.mem_reverse.mp h)
  simp at this

theorem closedPart_closed (xs : List α) : Closed sep (closedPart sep xs) := by
  unfold Closed closedPart
  cases h : xs.reverse.dropWhile (· ≠ sep) with
  | nil => exact .inl rfl
  | cons x rest =>
      have stopped := List.head?_dropWhile_not (fun y => decide (y ≠ sep)) xs.reverse
      rw [h] at stopped
      simp only [List.head?_cons, decide_eq_false_iff_not, not_not] at stopped
      exact .inr (by simp [stopped])

theorem openTail_eq_nil_iff {xs : List α} : openTail sep xs = [] ↔ Closed sep xs := by
  constructor
  · intro h
    have whole : closedPart sep xs ++ openTail sep xs = xs := closedPart_append_openTail xs
    rw [h, List.append_nil] at whole
    exact whole ▸ closedPart_closed xs
  · rintro (rfl | last)
    · rfl
    · obtain ⟨front, rfl⟩ := List.getLast?_eq_some_iff.mp last
      simp [openTail]

theorem openTail_append {xs : List α} (closed : Closed sep xs) (ys : List α) :
    openTail sep (xs ++ ys) = openTail sep ys := by
  have nothing : xs.reverse.takeWhile (· ≠ sep) = [] :=
    List.reverse_eq_nil_iff.mp (openTail_eq_nil_iff.mpr closed)
  rw [openTail, openTail, List.reverse_append, List.takeWhile_append]
  split_ifs with whole
  · rw [nothing, List.append_nil, List.takeWhile_eq_self_iff.mpr]
    exact List.takeWhile_eq_self_iff.mp
      ((List.takeWhile_prefix _).eq_of_length whole)
  · rfl

theorem openTail_eq_self {xs : List α} (absent : sep ∉ xs) : openTail sep xs = xs := by
  have all : xs.reverse.takeWhile (· ≠ sep) = xs.reverse := by
    apply List.takeWhile_eq_self_iff.mpr
    intro x mem
    have other : x ≠ sep := fun equal => absent (equal ▸ List.mem_reverse.mp mem)
    simpa using other
  rw [openTail, all, List.reverse_reverse]

theorem pieces_append {xs : List α} (closed : Closed sep xs) (ys : List α) :
    pieces sep (xs ++ ys) = pieces sep xs ++ pieces sep ys := by
  induction xs with
  | nil => rfl
  | cons x xs ih =>
      simp only [List.cons_append, pieces]
      by_cases first : x = sep
      · have rest : Closed sep xs := by
          rcases closed with absent | last
          · exact absurd absent (by simp)
          · cases xs with
            | nil => exact .inl rfl
            | cons y ys => exact .inr (by simpa using last)
        rw [if_pos first, if_pos first, ih rest, List.cons_append]
      · cases xs with
        | nil =>
            rcases closed with absent | last
            · exact absurd absent (by simp)
            · exact absurd (by simpa using last) first
        | cons y zs =>
            have rest : Closed sep (y :: zs) := by
              rcases closed with absent | last
              · exact absurd absent (by simp)
              · exact .inr (by simpa using last)
            rw [if_neg first, if_neg first, ih rest]
            cases h : pieces sep (y :: zs) with
            | nil =>
                simp only [pieces] at h
                split_ifs at h
                split at h <;> simp at h
            | cons p ps => rfl

theorem pieces_tail {xs : List α} (h : sep ∉ xs) (nonempty : xs ≠ []) : pieces sep xs = [xs] := by
  induction xs with
  | nil => exact absurd rfl nonempty
  | cons x xs ih =>
      have other : x ≠ sep := fun equal => h (equal ▸ List.mem_cons_self)
      rw [pieces, if_neg other]
      by_cases last : xs = []
      · rw [last]
        rfl
      · rw [ih (fun mem => h (List.mem_cons_of_mem x mem)) last]

theorem pieces_line {xs : List α} (h : sep ∉ xs) : pieces sep (xs ++ [sep]) = [xs ++ [sep]] := by
  induction xs with
  | nil => simp [pieces]
  | cons x xs ih =>
      have other : x ≠ sep := fun equal => h (equal ▸ List.mem_cons_self)
      rw [List.cons_append, pieces, if_neg other, ih fun mem => h (List.mem_cons_of_mem x mem)]

theorem pieces_lines {lines : List (List α)} (single : ∀ line ∈ lines, sep ∉ line) :
    pieces sep (lines.flatMap (· ++ [sep])) = lines.map (· ++ [sep]) := by
  induction lines with
  | nil => rfl
  | cons line rest ih =>
      rw [List.forall_mem_cons] at single
      have closed : Closed sep (line ++ [sep]) := .inr (by simp)
      rw [List.flatMap_cons, pieces_append closed, pieces_line single.1, ih single.2]
      rfl

omit [DecidableEq α] in
theorem closed_append {xs ys : List α} (hx : Closed sep xs) (hy : Closed sep ys) :
    Closed sep (xs ++ ys) := by
  rcases hy with rfl | last
  · simpa using hx
  · exact .inr (by simp [List.getLast?_append, last])

omit [DecidableEq α] in
theorem closed_line (xs : List α) : Closed sep (xs ++ [sep]) := .inr (by simp)

section Selection

variable {γ δ : Type u} {f : γ → List δ} {p q : γ → Bool}

/-- The texts of the chosen elements, one behind another. -/
def selected (f : γ → List δ) (p : γ → Bool) (xs : List γ) : List δ :=
  xs.flatMap fun x => if p x then f x else []

theorem selected_cons (x : γ) (xs : List γ) :
    selected f p (x :: xs) = (if p x then f x else []) ++ selected f p xs := rfl

private theorem selected_length_le {xs : List γ} (weaker : ∀ x ∈ xs, p x = true → q x = true) :
    (selected f p xs).length ≤ (selected f q xs).length := by
  induction xs with
  | nil => exact le_refl _
  | cons x xs ih =>
      have here := weaker x List.mem_cons_self
      have later := ih fun y hy => weaker y (List.mem_cons_of_mem x hy)
      rw [selected_cons, selected_cons, List.length_append, List.length_append]
      by_cases chosen : p x = true
      · rw [if_pos chosen, if_pos (here chosen)]
        omega
      · rw [if_neg chosen]
        simp only [List.length_nil]
        omega

theorem selected_eq_iff {xs : List γ} (weaker : ∀ x ∈ xs, p x = true → q x = true)
    (nonempty : ∀ x ∈ xs, f x ≠ []) :
    selected f p xs = selected f q xs ↔ ∀ x ∈ xs, q x = true → p x = true := by
  induction xs with
  | nil => simp [selected]
  | cons x xs ih =>
      have here := weaker x List.mem_cons_self
      have later := fun y hy => weaker y (List.mem_cons_of_mem x hy)
      have rest := ih later fun y hy => nonempty y (List.mem_cons_of_mem x hy)
      rw [selected_cons, selected_cons, List.forall_mem_cons, ← rest]
      by_cases chosen : p x = true
      · rw [if_pos chosen, if_pos (here chosen), List.append_cancel_left_eq]
        exact ⟨fun same => ⟨fun _ => chosen, same⟩, fun both => both.2⟩
      · by_cases wanted : q x = true
        · rw [if_neg chosen, if_pos wanted, List.nil_append]
          constructor
          · intro same
            have long := congrArg List.length same
            have short : (selected f p xs).length ≤ _ := selected_length_le later
            have text := List.length_pos_iff.mpr (nonempty x List.mem_cons_self)
            rw [List.length_append] at long
            omega
          · intro both
            exact absurd (both.1 wanted) chosen
        · rw [if_neg chosen, if_neg wanted, List.append_cancel_left_eq]
          exact ⟨fun same => ⟨fun h => absurd h wanted, same⟩, fun both => both.2⟩

end Selection

end StreamDataPipeline.Foundations.Lines
