/- Unsigned 64-bit arithmetic on natural numbers, with the wrap written out. -/

import Mathlib.Algebra.Order.Ring.Nat

set_option autoImplicit false
set_option relaxedAutoImplicit false

namespace StreamDataPipeline.Foundations.Word

def u64Add (a b : Nat) : Nat := (a + b) % 2 ^ 64

/-- Subtraction of two 64-bit words: a borrow wraps. -/
def u64Sub (a b : Nat) : Nat := (a + (2 ^ 64 - b)) % 2 ^ 64

/-- `n--` on an object size: only 0 wraps. -/
def sizeDec (n : Nat) : Nat := if n = 0 then 2 ^ 64 - 1 else n - 1

theorem u64Add_of_lt {a b : Nat} (h : a + b < 2 ^ 64) : u64Add a b = a + b :=
  Nat.mod_eq_of_lt h

theorem u64Sub_of_le {a b : Nat} (hb : b ≤ a) (ha : a < 2 ^ 64) : u64Sub a b = a - b := by
  have wrapped : a + (2 ^ 64 - b) = (a - b) + 2 ^ 64 := by omega
  rw [u64Sub, wrapped, Nat.add_mod_right]
  exact Nat.mod_eq_of_lt (by omega)

/-- Addition that fails where the word addition wraps. -/
def checkedAdd (a b : Nat) : Option Nat := if a + b < 2 ^ 64 then some (a + b) else none

/-- Subtraction that fails where the word subtraction borrows. -/
def checkedSub (a b : Nat) : Option Nat := if b ≤ a then some (a - b) else none

theorem checkedAdd_of_lt {a b : Nat} (h : a + b < 2 ^ 64) : checkedAdd a b = some (u64Add a b) := by
  rw [checkedAdd, if_pos h, u64Add_of_lt h]

theorem checkedSub_of_le {a b : Nat} (hb : b ≤ a) (ha : a < 2 ^ 64) :
    checkedSub a b = some (u64Sub a b) := by
  rw [checkedSub, if_pos hb, u64Sub_of_le hb ha]

end StreamDataPipeline.Foundations.Word
