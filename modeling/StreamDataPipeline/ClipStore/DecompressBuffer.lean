/- The buffer into which parse_db_row decompresses a value (db_format). -/

import StreamDataPipeline.ClipStore.Format

set_option autoImplicit false
set_option relaxedAutoImplicit false

namespace StreamDataPipeline.ClipStore.DecompressBuffer

open Foundations Foundations.ByteString Foundations.Decimal Lib.Base64 Format

/-- The write `uncomp[uncomp_len] = '\0'`: its index, the size that was allocated, and the length
of the compressed value. -/
structure TerminatorWrite where
  compLen : Nat
  index : Nat
  size : Nat
  deriving DecidableEq

/-- The terminator write of `parse_db_row`; `none` for a line that is not accepted as a `Z:`
row. -/
def terminatorWrite (z : Zlib) (line : Bytes) : Option TerminatorWrite := do
  let (_, rest) ← strchr tab line
  let (value, last) ← strchr tab rest
  let _ ← strtolWhole last
  match value with
  | 90 :: 58 :: b64 =>
      let comp ← base64Decode 58 b64 (b64.length + 1)
      let (cap, out) ← uncompressValue z comp
      pure ⟨comp.length, out.length, cap⟩
  | _ => none

/-- The value of a line starts with the mark of a compressed value. -/
def ZMarked (line : Bytes) : Prop :=
  ∃ key rest b64 last, strchr tab line = some (key, rest) ∧
    strchr tab rest = some (90 :: 58 :: b64, last)

theorem terminatorWrite_isSome_iff (z : Zlib) {line : Bytes} (marked : ZMarked line) :
    (terminatorWrite z line).isSome = true ↔ (parseDbRow z line).isSome = true := by
  obtain ⟨key, rest, b64, last, first, second⟩ := marked
  simp only [terminatorWrite, parseDbRow, first, second, Option.bind_eq_bind, Option.bind_some]
  cases strtolWhole last with
  | none => rfl
  | some expireAt =>
      cases base64Decode 58 b64 (b64.length + 1) with
      | none => rfl
      | some comp => cases found : uncompressValue z comp <;> simp [found]

/-- The allocated size is the first doubling of the start size that the content fits. -/
theorem terminatorWrite_spec {z : Zlib} {line : Bytes} {write : TerminatorWrite}
    (written : terminatorWrite z line = some write) :
    ∃ k, write.size = (write.compLen * 4 + 1024) * 2 ^ k ∧ write.index ≤ write.size ∧
      ∀ j < k, (write.compLen * 4 + 1024) * 2 ^ j < write.index := by
  unfold terminatorWrite at written
  obtain ⟨⟨key, rest⟩, -, written⟩ := Option.bind_eq_some_iff.mp written
  obtain ⟨⟨value, last⟩, -, written⟩ := Option.bind_eq_some_iff.mp written
  obtain ⟨expireAt, -, written⟩ := Option.bind_eq_some_iff.mp written
  dsimp only at written
  split at written
  · obtain ⟨comp, -, written⟩ := Option.bind_eq_some_iff.mp written
    obtain ⟨⟨cap, out⟩, found, written⟩ := Option.bind_eq_some_iff.mp written
    cases written
    have content := uncompressValue_eq z comp
    rw [found] at content
    obtain ⟨k, same, room, first⟩ := uncompressValue_spec content.symm
    rw [found] at same
    cases same
    exact ⟨k, rfl, room, first⟩
  · cases written

/-- The terminator is written inside the buffer exactly when the decompressed length is none of
the sizes that the buffer can have. -/
theorem terminator_in_bounds_iff (z : Zlib) (line : Bytes) {write : TerminatorWrite}
    (written : terminatorWrite z line = some write) :
    write.index < write.size ↔ ∀ k, write.index ≠ (write.compLen * 4 + 1024) * 2 ^ k := by
  obtain ⟨k, size, room, first⟩ := terminatorWrite_spec written
  constructor
  · rintro inside j same
    rcases Nat.lt_or_ge j k with before | after
    · exact absurd same (Nat.ne_of_gt (first j before))
    · have larger := Nat.mul_le_mul_left (write.compLen * 4 + 1024)
        (Nat.pow_le_pow_right (show 0 < 2 by decide) after)
      omega
  · intro other
    have apart := other k
    omega

/-- The compressed stream of 1096 letters. -/
def lettersStream : Bytes :=
  [120, 156, 75, 76, 28, 5, 163, 96, 20, 140, 2, 202, 0, 0, 254, 35, 159, 88]

def letters : Bytes := List.replicate 1096 97

/-- The codec of short values that also knows the stream of the letters. -/
def lettersZlib : Zlib where
  compress := StoredDeflate.compressStored
  inflate comp := if comp = lettersStream then some letters else StoredDeflate.inflateStored comp
  inflate_compress := by
    intro v comp compressed
    have stored := StoredDeflate.inflateStored_compressStored compressed
    rw [if_neg, stored]
    rintro rfl
    exact absurd stored (by
      have damaged : StoredDeflate.inflateStored lettersStream = none := by decide
      simp [damaged])

def lettersLine : Bytes := ascii "k\tZ:eJxLTBwFo2AUjALKAAD+I59Y\t0"

def shortLine : Bytes := ascii "k\tZ:eJwBAQD+/3YAdwB3\t0"

theorem terminator_in_bounds_short :
    ∃ write, terminatorWrite storedZlib shortLine = some write ∧ write.index < write.size := by
  have written : terminatorWrite storedZlib shortLine = some ⟨12, 1, 1072⟩ := by decide +kernel
  refine ⟨_, written, (terminator_in_bounds_iff storedZlib shortLine written).mpr ?_⟩
  intro k same
  have power := Nat.two_pow_pos k
  dsimp only at same
  omega

/-- The letters fill the first buffer to its last byte, and the terminator goes behind it. -/
theorem terminator_past_letters :
    (parseDbRow lettersZlib lettersLine).isSome = true ∧
      ∃ write, terminatorWrite lettersZlib lettersLine = some write ∧
        ¬ write.index < write.size :=
  ⟨by decide +kernel, ⟨18, 1096, 1096⟩, by decide +kernel, by decide⟩

end StreamDataPipeline.ClipStore.DecompressBuffer
