/- Writing one key leaves the other keys alone exactly when the key fits its field. -/

import StreamDataPipeline.ClipStore.Query

set_option autoImplicit false
set_option relaxedAutoImplicit false

namespace StreamDataPipeline.ClipStore.KeyIsolation

open Foundations.ByteString Foundations.Lines Foundations.LastWrite Foundations.Decimal Format Query

/-- The key finds the row that was written, every other key what it found before. -/
def Isolated (z : Zlib) (before after : Bytes) (row : Row) : Prop :=
  loadLatestRow z after row.key = some (some row) ∧
    ∀ other ≠ row.key, loadLatestRow z after other = loadLatestRow z before other

/-- No byte of the key ends a field or a line. -/
def KeyFits (key : Bytes) : Prop := tab ∉ key ∧ lf ∉ key ∧ cr ∉ key

instance : DecidablePred KeyFits := fun _ => inferInstanceAs (Decidable (_ ∧ _))

private theorem keyFits_iff {key : Bytes} (nulFree : nul ∉ key) :
    KeyFits key ↔ ∀ b ∈ key, FieldByte b := by
  rw [fieldBytes_iff, KeyFits]
  exact (and_iff_right nulFree).symm

private theorem isolated_of_storable {z : Zlib} {before after : Bytes} {row : Row}
    (closed : Closed lf before) (storable : Storable row)
    (appended : appendDbRow z before row.key row.value row.expireAt = some after) :
    Isolated z before after row := by
  have rows := (dbRows_appendDbRow closed storable appended).1
  have lookup : ∀ key, latestRow z after key =
      if row.key = key then some row else latestRow z before key := by
    intro key
    rw [latestRow, rows, lastWrite_concat]
    rfl
  constructor
  · rw [loadLatestRow_eq, lookup, if_pos rfl]
  · intro other different
    rw [loadLatestRow_eq, loadLatestRow_eq, lookup, if_neg different.symm]

/-- Over a file of finished lines, an append is isolated if and only if its key holds no
TAB, LF or CR. Key and value are C strings and the expiry is a long. -/
theorem append_isolated_iff (z : Zlib) {before after : Bytes} {row : Row}
    (closed : Closed lf before) (keyNulFree : nul ∉ row.key) (valueNulFree : nul ∉ row.value)
    (long : IsLong row.expireAt)
    (appended : appendDbRow z before row.key row.value row.expireAt = some after) :
    Isolated z before after row ↔ KeyFits row.key := by
  rw [keyFits_iff keyNulFree]
  constructor
  · rintro ⟨found, _⟩
    by_contra unclean
    rw [loadLatestRow_eq, latestRow_of_unclean unclean] at found
    simp at found
  · intro clean
    exact isolated_of_storable closed ⟨clean, valueNulFree, long⟩ appended

def oneRowDb : Bytes := ascii "b\tv\t0\n"

/-- The key `a` is written next to it. -/
theorem append_isolated_beside_b :
    ∃ after, appendDbRow storedZlib oneRowDb (ascii "a") (ascii "w") 0 = some after ∧
      KeyFits (ascii "a") ∧
      (Isolated storedZlib oneRowDb after ⟨ascii "a", ascii "w", 0⟩ ↔ KeyFits (ascii "a")) :=
  ⟨(appendDbRow storedZlib oneRowDb (ascii "a") (ascii "w") 0).getD [], by decide, by decide,
    append_isolated_iff storedZlib (by decide) (by decide)
      (by decide) (by decide) (by decide)⟩

/-- A session id that decodes to a line feed, a whole row and another line feed: the key of
its clip is not found afterwards, and the row it smuggles in deletes the key `b`. -/
theorem smuggled_row_deletes_other_key :
    ∃ after, appendDbRow storedZlib oneRowDb (ascii "x\nb\t\t0\nx:1") (ascii "w") 0 = some after ∧
      ¬ Isolated storedZlib oneRowDb after ⟨ascii "x\nb\t\t0\nx:1", ascii "w", 0⟩ ∧
      loadLatestRow storedZlib oneRowDb (ascii "b") =
        some (some ⟨ascii "b", ascii "v", 0⟩) ∧
      loadLatestRow storedZlib after (ascii "b") = some (some ⟨ascii "b", [], 0⟩) := by
  refine ⟨(appendDbRow storedZlib oneRowDb (ascii "x\nb\t\t0\nx:1") (ascii "w") 0).getD [],
    by decide, ?_, ?_, ?_⟩
  · rintro ⟨found, _⟩
    rw [loadLatestRow_eq, latestRow_of_unclean (by decide)] at found
    simp at found
  · rw [loadLatestRow_eq]
    decide
  · rw [loadLatestRow_eq]
    decide

end StreamDataPipeline.ClipStore.KeyIsolation
