/- Greedy division of a list into pieces. -/

import Mathlib.Data.List.Basic

set_option autoImplicit false
set_option relaxedAutoImplicit false

namespace StreamDataPipeline.Foundations.GreedySplit

universe u

variable {α : Type u}

/-- A piece of consecutive elements. It is never empty. -/
structure Piece (α : Type u) where
  first : α
  later : List α

namespace Piece

def single (a : α) : Piece α := ⟨a, []⟩

def members (piece : Piece α) : List α := piece.first :: piece.later

def last (piece : Piece α) : α := piece.later.getLastD piece.first

def push (piece : Piece α) (a : α) : Piece α := ⟨piece.first, piece.later ++ [a]⟩

@[simp] theorem last_single (a : α) : (single a).last = a := rfl

@[simp] theorem members_single (a : α) : (single a).members = [a] := rfl

@[simp] theorem first_push (piece : Piece α) (a : α) : (piece.push a).first = piece.first := rfl

@[simp] theorem last_push (piece : Piece α) (a : α) : (piece.push a).last = a := by
  simp [last, push]

@[simp] theorem members_push (piece : Piece α) (a : α) :
    (piece.push a).members = piece.members ++ [a] := rfl

end Piece

variable (Extends : Piece α → α → Prop) [∀ piece a, Decidable (Extends piece a)]

/-- Every element joins the current piece if it extends it, and opens a piece otherwise. -/
def splitFrom (piece : Piece α) : List α → List (Piece α)
  | [] => [piece]
  | a :: rest =>
      if Extends piece a then splitFrom (piece.push a) rest
      else piece :: splitFrom (.single a) rest

def split : List α → List (Piece α)
  | [] => []
  | a :: rest => splitFrom Extends (.single a) rest

theorem splitFrom_cons_extends {piece : Piece α} {a : α} (h : Extends piece a) (rest : List α) :
    splitFrom Extends piece (a :: rest) = splitFrom Extends (piece.push a) rest := by
  rw [splitFrom, if_pos h]

theorem splitFrom_cons_opens {piece : Piece α} {a : α} (h : ¬ Extends piece a) (rest : List α) :
    splitFrom Extends piece (a :: rest) = piece :: splitFrom Extends (.single a) rest := by
  rw [splitFrom, if_neg h]

/-- The piece under construction only grows, so the first piece of the result opens with
the element that opened it. -/
theorem splitFrom_head (piece : Piece α) (rest : List α) :
    ∃ grown pieces, splitFrom Extends piece rest = grown :: pieces ∧ grown.first = piece.first := by
  induction rest generalizing piece with
  | nil => exact ⟨piece, [], rfl, rfl⟩
  | cons a rest ih =>
      by_cases h : Extends piece a
      · rw [splitFrom_cons_extends Extends h]
        obtain ⟨grown, pieces, equal, opened⟩ := ih (piece.push a)
        exact ⟨grown, pieces, equal, opened⟩
      · rw [splitFrom_cons_opens Extends h]
        exact ⟨piece, _, rfl, rfl⟩

end StreamDataPipeline.Foundations.GreedySplit
