/- A file that is written through a buffer. -/

import Mathlib.Data.List.TakeDrop

/-!
What is put into the stream waits in the buffer until some of it, in order, reaches the
file. Buffering moves bytes and changes none.
-/

set_option autoImplicit false
set_option relaxedAutoImplicit false

namespace StreamDataPipeline.Foundations.OutputStream

universe u

variable {α : Type u}

structure Stream (α : Type u) where
  file : List α
  pending : List α
  deriving DecidableEq

namespace Stream

/-- What the file holds once the buffer is written. -/
def content (s : Stream α) : List α := s.file ++ s.pending

def put (s : Stream α) (xs : List α) : Stream α := ⟨s.file, s.pending ++ xs⟩

/-- Up to `n` elements leave the buffer for the file. -/
def spill (s : Stream α) (n : Nat) : Stream α := ⟨s.file ++ s.pending.take n, s.pending.drop n⟩

def flush (s : Stream α) : Stream α := ⟨s.content, []⟩

def opened (file : List α) : Stream α := ⟨file, []⟩

@[simp] theorem content_opened (file : List α) : (opened file).content = file :=
  List.append_nil file

@[simp] theorem content_put (s : Stream α) (xs : List α) : (s.put xs).content = s.content ++ xs :=
  (List.append_assoc _ _ _).symm

@[simp] theorem content_spill (s : Stream α) (n : Nat) : (s.spill n).content = s.content := by
  simp [content, spill]

@[simp] theorem content_flush (s : Stream α) : s.flush.content = s.content := by
  simp [content, flush]

theorem spill_file_eq_content_iff (s : Stream α) (n : Nat) :
    (s.spill n).file = s.content ↔ s.pending.length ≤ n := by
  rw [content, spill, List.append_cancel_left_eq, List.take_eq_self_iff]

end Stream

end StreamDataPipeline.Foundations.OutputStream
