/- Descriptor tables: the lowest free number, `pipe`, `dup2` and `close`. -/

import Mathlib.Data.List.Basic
import Mathlib.Logic.Function.Basic
import Mathlib.Tactic.Set

set_option autoImplicit false
set_option relaxedAutoImplicit false

namespace StreamDataPipeline.Foundations

universe u v

/-- What the descriptors of a process refer to. Finitely many of them are open. -/
structure DescriptorTable (α : Type u) where
  entry : Nat → Option α
  bound : Nat
  free_beyond : ∀ n, bound ≤ n → entry n = none

namespace DescriptorTable

variable {α : Type u} {β : Type v}

def map (f : α → β) (t : DescriptorTable α) : DescriptorTable β where
  entry n := (t.entry n).map f
  bound := t.bound
  free_beyond n beyond := by rw [t.free_beyond n beyond]; rfl

/-- The lowest number that is not open. -/
def lowestFree (t : DescriptorTable α) : Nat :=
  ((List.range t.bound).find? fun n => (t.entry n).isNone).getD t.bound

/-- Let the number refer to the file, whatever it referred to before. -/
def place (t : DescriptorTable α) (n : Nat) (file : α) : DescriptorTable α where
  entry := Function.update t.entry n (some file)
  bound := max t.bound (n + 1)
  free_beyond m beyond := by
    have other : m ≠ n := by omega
    rw [Function.update_of_ne other]
    exact t.free_beyond m (by omega)

def close (t : DescriptorTable α) (n : Nat) : DescriptorTable α where
  entry := Function.update t.entry n none
  bound := t.bound
  free_beyond m beyond := by
    by_cases same : m = n
    · rw [same, Function.update_self]
    · rw [Function.update_of_ne same]
      exact t.free_beyond m beyond

/-- `none` where `old` is not open. -/
def dup2 (t : DescriptorTable α) (old new : Nat) : Option (DescriptorTable α) :=
  (t.entry old).map (t.place new)

/-- The two lowest free numbers refer to the two ends. -/
def pipe (t : DescriptorTable α) (readEnd writeEnd : α) : (Nat × Nat) × DescriptorTable α :=
  let opened := t.place t.lowestFree readEnd
  ((t.lowestFree, opened.lowestFree), opened.place opened.lowestFree writeEnd)

@[simp] theorem entry_map (f : α → β) (t : DescriptorTable α) (n : Nat) :
    (t.map f).entry n = (t.entry n).map f := rfl

@[simp] theorem entry_place (t : DescriptorTable α) (n : Nat) (file : α) :
    (t.place n file).entry = Function.update t.entry n (some file) := rfl

@[simp] theorem entry_close (t : DescriptorTable α) (n : Nat) :
    (t.close n).entry = Function.update t.entry n none := rfl

theorem lowestFree_spec (t : DescriptorTable α) :
    t.entry t.lowestFree = none ∧ ∀ n, n < t.lowestFree → t.entry n ≠ none := by
  unfold lowestFree
  cases found : (List.range t.bound).find? fun n => (t.entry n).isNone with
  | none =>
      refine ⟨t.free_beyond _ (Nat.le_refl _), fun n below => ?_⟩
      have taken := List.find?_range_eq_none.mp found n below
      simpa [Option.isSome_iff_ne_none] using taken
  | some n =>
      obtain ⟨free, -, taken⟩ := List.find?_range_eq_some.mp found
      refine ⟨by simpa using free, fun m below => ?_⟩
      have open_below := taken m below
      simpa [Option.isSome_iff_ne_none] using open_below

theorem entry_lowestFree (t : DescriptorTable α) : t.entry t.lowestFree = none :=
  t.lowestFree_spec.1

theorem lowestFree_le {t : DescriptorTable α} {n : Nat} (free : t.entry n = none) :
    t.lowestFree ≤ n := by
  by_contra above
  exact t.lowestFree_spec.2 n (Nat.not_le.mp above) free

theorem lowestFree_lt_place (t : DescriptorTable α) (file : α) :
    t.lowestFree < (t.place t.lowestFree file).lowestFree := by
  have free := (t.place t.lowestFree file).entry_lowestFree
  rw [entry_place] at free
  have other : (t.place t.lowestFree file).lowestFree ≠ t.lowestFree := by
    intro same
    rw [same, Function.update_self] at free
    cases free
  rw [Function.update_of_ne other] at free
  exact Nat.lt_of_le_of_ne (lowestFree_le free) other.symm

/-- `pipe` takes the two lowest free numbers; those that stay free are above them. -/
theorem pipe_spec (t : DescriptorTable α) (readEnd writeEnd : α) :
    ∃ r w t', t.pipe readEnd writeEnd = ((r, w), t') ∧ r < w ∧
      (t.entry r = none ∧ ∀ n, n < r → t.entry n ≠ none) ∧
      t'.entry = Function.update (Function.update t.entry r (some readEnd)) w (some writeEnd) ∧
      ∀ n, t'.entry n = none → w < n := by
  set opened := t.place t.lowestFree readEnd with opened_eq
  refine ⟨t.lowestFree, opened.lowestFree, opened.place opened.lowestFree writeEnd, rfl,
    t.lowestFree_lt_place readEnd, t.lowestFree_spec, rfl, fun n free => ?_⟩
  have next := opened.lowestFree_lt_place writeEnd
  exact Nat.lt_of_lt_of_le next (lowestFree_le free)

theorem dup2_of_open {t : DescriptorTable α} {old new : Nat} {file : α}
    (taken : t.entry old = some file) : t.dup2 old new = some (t.place new file) := by
  rw [dup2, taken]
  rfl

theorem entry_foldl_close (t : DescriptorTable α) (fds : List Nat) (n : Nat) :
    (fds.foldl close t).entry n = if n ∈ fds then none else t.entry n := by
  induction fds generalizing t with
  | nil => rfl
  | cons fd rest ih =>
      rw [List.foldl_cons, ih, entry_close]
      by_cases same : n = fd
      · subst same
        simp
      · simp [same, Function.update_of_ne]

end DescriptorTable

end StreamDataPipeline.Foundations
