/- Byte strings, and the reading of a byte buffer as a C string. -/

import Mathlib.Data.List.TakeWhile

set_option autoImplicit false
set_option relaxedAutoImplicit false

namespace StreamDataPipeline.Foundations.ByteString

abbrev Bytes := List UInt8

def nul : UInt8 := 0
def tab : UInt8 := 9
def lf : UInt8 := 10
def cr : UInt8 := 13

/-- A property of the bytes of a string is decided along the string. -/
instance (priority := 2000) decidableForallBytes (p : UInt8 → Prop) [DecidablePred p] (s : Bytes) :
    Decidable (∀ b ∈ s, p b) := List.decidableBAll p s

/-- The bytes of an ASCII literal. -/
def ascii (s : String) : Bytes := s.toList.map (fun c => UInt8.ofNat c.toNat)

/-- What a reader of `char *` sees of a buffer: the bytes before the first NUL. -/
def cstr (b : Bytes) : Bytes := b.takeWhile (· ≠ nul)

/-- `strchr(s, c)`: what stands before and after the first `c`. -/
def strchr (c : UInt8) : Bytes → Option (Bytes × Bytes)
  | [] => none
  | x :: xs =>
      if x = c then some ([], xs) else (strchr c xs).map fun parts => (x :: parts.1, parts.2)

/-- `memchr(mem, c, n)`: the index of the first `c` in the first `n` bytes. -/
def memchr (c : UInt8) (mem : Bytes) (n : Nat) : Option Nat :=
  (strchr c (mem.take n)).map fun parts => parts.1.length

/-- The memory after the bytes are written to it, from some index on. -/
def memwrite (mem : Bytes) (start : Nat) (bytes : Bytes) : Bytes :=
  mem.take start ++ bytes ++ mem.drop (start + bytes.length)

theorem memwrite_append (before old after : Bytes) {bytes : Bytes}
    (size : bytes.length = old.length) :
    memwrite (before ++ old ++ after) before.length bytes = before ++ bytes ++ after := by
  rw [memwrite, List.append_assoc before old, List.take_left' rfl, size, ← List.drop_drop,
    List.drop_left' rfl, List.drop_left' rfl]

theorem memwrite_behind {mem : Bytes} {start : Nat} (inside : start ≤ mem.length)
    (first second : Bytes) :
    memwrite (memwrite mem start first) (start + first.length) second =
      memwrite mem start (first ++ second) := by
  have front : (mem.take start ++ first).length = start + first.length := by
    rw [List.length_append, List.length_take, Nat.min_eq_left inside]
  rw [memwrite, memwrite, ← front, List.take_left' rfl, ← List.drop_drop, List.drop_left' rfl,
    List.drop_drop, front, memwrite, List.length_append, ← List.append_assoc, Nat.add_assoc]

section Writing

variable {mem bytes : Bytes} {start : Nat}

/-- Writing that fails where it leaves the memory. -/
def checkedWrite (mem : Bytes) (start : Nat) (bytes : Bytes) : Option Bytes :=
  if start + bytes.length ≤ mem.length then some (memwrite mem start bytes) else none

theorem checkedWrite_of_le (fits : start + bytes.length ≤ mem.length) :
    checkedWrite mem start bytes = some (memwrite mem start bytes) := if_pos fits

theorem length_memwrite (fits : start + bytes.length ≤ mem.length) :
    (memwrite mem start bytes).length = mem.length := by
  simp only [memwrite, List.length_append, List.length_take, List.length_drop]
  omega

theorem take_memwrite (fits : start ≤ mem.length) :
    (memwrite mem start bytes).take (start + bytes.length) = mem.take start ++ bytes := by
  rw [memwrite, List.take_left']
  rw [List.length_append, List.length_take, Nat.min_eq_left fits]

theorem take_memwrite_before {n : Nat} (before : n ≤ start) (fits : start ≤ mem.length) :
    (memwrite mem start bytes).take n = mem.take n := by
  have inside : n ≤ (mem.take start).length := by
    rw [List.length_take]
    omega
  rw [memwrite, List.append_assoc, List.take_append_of_le_length inside, List.take_take,
    Nat.min_eq_left before]

theorem getElem?_memwrite_start {b : UInt8} (fits : start ≤ mem.length) :
    (memwrite mem start [b])[start]? = some b := by
  have stop : (mem.take start).length = start := by
    rw [List.length_take]
    omega
  rw [memwrite, List.append_assoc, List.getElem?_append_right (by omega), stop, Nat.sub_self]
  rfl

end Writing

theorem cstr_of_nul_free {b : Bytes} (h : nul ∉ b) : cstr b = b := by
  apply List.takeWhile_eq_self_iff.mpr
  intro x hx
  have different : x ≠ nul := fun equal => h (equal ▸ hx)
  simpa using different

theorem cstr_append_nul (b rest : Bytes) : cstr (b ++ nul :: rest) = cstr b := by
  induction b with
  | nil => simp [cstr]
  | cons x xs ih =>
      simp only [cstr, List.cons_append, List.takeWhile_cons] at ih ⊢
      rw [ih]

theorem nul_not_mem_cstr (b : Bytes) : nul ∉ cstr b := by
  intro h
  have := List.mem_takeWhile_imp h
  simp at this

theorem strchr_append {c : UInt8} {before : Bytes} (absent : c ∉ before) (after : Bytes) :
    strchr c (before ++ c :: after) = some (before, after) := by
  induction before with
  | nil => simp [strchr]
  | cons x xs ih =>
      have other : x ≠ c := fun equal => absent (equal ▸ List.mem_cons_self)
      have rest := ih fun mem => absent (List.mem_cons_of_mem x mem)
      simp [strchr, other, rest]

theorem strchr_eq_some {c : UInt8} {s before after : Bytes}
    (h : strchr c s = some (before, after)) : s = before ++ c :: after ∧ c ∉ before := by
  induction s generalizing before with
  | nil => simp [strchr] at h
  | cons x xs ih =>
      rw [strchr] at h
      split_ifs at h with first
      · obtain ⟨rfl, rfl⟩ : [] = before ∧ xs = after := by simpa using h
        simp [first]
      · obtain ⟨⟨front, back⟩, found, split⟩ := Option.map_eq_some_iff.mp h
        obtain ⟨rfl, rfl⟩ : x :: front = before ∧ back = after := by simpa using split
        obtain ⟨rfl, absent⟩ := ih found
        exact ⟨rfl, by simp [Ne.symm first, absent]⟩

theorem strchr_append_left {c : UInt8} {s before after : Bytes}
    (h : strchr c s = some (before, after)) (more : Bytes) :
    strchr c (s ++ more) = some (before, after ++ more) := by
  obtain ⟨rfl, absent⟩ := strchr_eq_some h
  rw [List.append_assoc, List.cons_append, strchr_append absent]

theorem strchr_suffix {c : UInt8} {s x before after : Bytes}
    (h : strchr c (s ++ c :: x) = some (before, after)) : x <:+ after := by
  cases found : strchr c s with
  | some parts =>
      rw [strchr_append_left found] at h
      obtain ⟨rfl, rfl⟩ : parts.1 = before ∧ parts.2 ++ c :: x = after := by simpa using h
      exact (List.suffix_cons c x).trans (List.suffix_append _ _)
  | none =>
      have absent : c ∉ s := by
        intro mem
        obtain ⟨front, back, rfl, first⟩ := List.eq_append_cons_of_mem mem
        rw [strchr_append first] at found
        cases found
      rw [strchr_append absent] at h
      obtain ⟨rfl, rfl⟩ : s = before ∧ x = after := by simpa using h
      exact List.suffix_rfl

theorem strchr_eq_none {c : UInt8} {s : Bytes} : strchr c s = none ↔ c ∉ s := by
  constructor
  · intro h mem
    obtain ⟨front, back, rfl, absent⟩ := List.eq_append_cons_of_mem mem
    rw [strchr_append absent] at h
    cases h
  · intro absent
    induction s with
    | nil => rfl
    | cons x xs ih =>
        have other : x ≠ c := fun equal => absent (equal ▸ List.mem_cons_self)
        have rest := ih fun mem => absent (List.mem_cons_of_mem x mem)
        simp [strchr, other, rest]

theorem strchr_isSome_iff (c : UInt8) (s : Bytes) : (strchr c s).isSome = true ↔ c ∈ s := by
  rw [← not_iff_not, Bool.not_eq_true, Option.isSome_eq_false_iff, Option.isNone_iff_eq_none,
    strchr_eq_none]

theorem prefix_before_last {α : Type*} {sep : α} {front name rest : List α} (last : sep ∉ rest) :
    front ++ [sep] <+: name ++ sep :: rest ↔ name = front ∨ front ++ [sep] <+: name := by
  constructor
  · rintro ⟨behind, equal⟩
    rcases List.append_eq_append_iff.mp equal with ⟨more, rfl, -⟩ | ⟨part, whole, split⟩
    · exact .inr (List.prefix_append _ _)
    cases part with
    | nil => exact .inr (by simp [whole])
    | cons x part =>
        obtain ⟨rfl, rfl⟩ := List.cons.inj split
        rcases List.eq_nil_or_concat part with rfl | ⟨init, y, rfl⟩
        · exact .inl (List.append_cancel_right whole).symm
        · -- the separator that ends the left side would stand behind the last one
          have ends : front ++ [sep] = (name ++ sep :: init) ++ [y] := by
            rw [whole, List.concat_eq_append, List.append_assoc, List.cons_append]
          have same : sep = y := (List.append_singleton_inj.mp ends).2
          exact absurd (by simp [same]) last
  · rintro (rfl | inside)
    · exact ⟨rest, by simp⟩
    · exact inside.trans (List.prefix_append _ _)

end StreamDataPipeline.Foundations.ByteString
