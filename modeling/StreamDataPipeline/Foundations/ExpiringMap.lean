/- A finite map whose entries may expire, and the histories that write it. -/

import Mathlib.Logic.Function.Basic
import StreamDataPipeline.Foundations.LastWrite

set_option autoImplicit false
set_option relaxedAutoImplicit false

namespace StreamDataPipeline.Foundations.ExpiringMap

open LastWrite

universe u v

variable {K : Type u} {V : Type v} [DecidableEq K]

/-- A value of a key and the first time at which it is gone, if it ever is. -/
abbrev TtlMap (K : Type u) (V : Type v) := K → Option (V × Option Int)

inductive Write (K : Type u) (V : Type v)
  | put (key : K) (value : V) (expiry : Option Int)
  | erase (key : K)
  deriving DecidableEq

def Write.key : Write K V → K
  | .put key _ _ => key
  | .erase key => key

def Write.effect : Write K V → Option (V × Option Int)
  | .put _ value expiry => some (value, expiry)
  | .erase _ => none

def empty : TtlMap K V := fun _ => none

def apply (m : TtlMap K V) (w : Write K V) : TtlMap K V := Function.update m w.key w.effect

/-- The map after a history of writes. -/
def after (history : List (Write K V)) : TtlMap K V := history.foldl apply empty

def expired (expiry : Option Int) (now : Int) : Bool := expiry.any fun t => t ≤ now

/-- The value of a key at a time. -/
def lookup (m : TtlMap K V) (now : Int) (k : K) : Option V :=
  match m k with
  | some (value, expiry) => if expired expiry now then none else some value
  | none => none

/-- Only the last write of a key counts. -/
theorem after_apply (history : List (Write K V)) (k : K) :
    after history k = (lastWrite Write.key history k).bind Write.effect := by
  induction history using List.reverseRecOn with
  | nil => rfl
  | append_singleton history w ih =>
      rw [after, List.foldl_append, List.foldl_cons, List.foldl_nil, apply, lastWrite_concat]
      by_cases same : w.key = k
      · subst same
        rw [Function.update_self, if_pos rfl, Option.bind_some]
      · rw [Function.update_of_ne (Ne.symm same), if_neg same]
        exact ih

end StreamDataPipeline.Foundations.ExpiringMap
