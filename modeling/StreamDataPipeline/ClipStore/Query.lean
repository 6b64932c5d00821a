/- Loading the latest rows of a database file (db_query). -/

import StreamDataPipeline.Foundations.Lines
import StreamDataPipeline.ClipStore.BucketIndex

set_option autoImplicit false
set_option relaxedAutoImplicit false

namespace StreamDataPipeline.ClipStore.Query

open Foundations Foundations.ByteString Foundations.Lines Foundations.LastWrite Format BucketIndex

/-- `line[strcspn(line, "\r\n")] = '\0'` on the buffer that `getline` filled. -/
def cutLine (line : Bytes) : Bytes := line.takeWhile fun b => b ≠ nul && b ≠ cr && b ≠ lf

/-- One turn of the reading loop: a line that is no row is skipped. -/
def loadLine (z : Zlib) (index : RowIndex) (line : Bytes) : Option RowIndex :=
  match parseDbRow z (cutLine line) with
  | none => some index
  | some row => rowIndexPut hashKey index row

def loadLatestRows (z : Zlib) (file : Bytes) : Option RowIndex :=
  (pieces lf file).foldlM (loadLine z) rowIndexEmpty

/-- The inner `none` is the return value 0, a row comes with the return value 1. -/
def loadLatestRow (z : Zlib) (file key : Bytes) : Option (Option Row) := do
  let rows ← loadLatestRows z file
  rowIndexGet hashKey rows key

def rowIsLive (row : Row) (now : Int) : Bool := !clipRowIsTombstone row && !clipRowIsExpired row now

/-- What the lines of a file are read as. -/
def rowLines (z : Zlib) (file : Bytes) : List (Option Row) :=
  (pieces lf file).map fun line => parseDbRow z (cutLine line)

/-- The rows of a file, in file order. -/
def dbRows (z : Zlib) (file : Bytes) : List Row :=
  (pieces lf file).filterMap fun line => parseDbRow z (cutLine line)

/-- The row that a lookup of the key finds. -/
def latestRow (z : Zlib) (file key : Bytes) : Option Row := lastWrite Row.key (dbRows z file) key

private theorem loadLines_holds (z : Zlib) (lines : List Bytes) (index : RowIndex) (log : List Row)
    (holds : Holds hashKey index log) :
    ∃ next, lines.foldlM (loadLine z) index = some next ∧
      Holds hashKey next (log ++ lines.filterMap fun line => parseDbRow z (cutLine line)) := by
  induction lines generalizing index log with
  | nil => exact ⟨index, rfl, by simpa using holds⟩
  | cons line rest ih =>
      cases parsed : parseDbRow z (cutLine line) with
      | none =>
          have step : loadLine z index line = some index := by simp [loadLine, parsed]
          obtain ⟨next, run, nextHolds⟩ := ih index log holds
          exact ⟨next, by simp [step, run], by simpa [parsed] using nextHolds⟩
      | some row =>
          obtain ⟨put, step, putHolds⟩ := rowIndexPut_spec holds row
          have step : loadLine z index line = some put := by simp [loadLine, parsed, step]
          obtain ⟨next, run, nextHolds⟩ := ih put (log ++ [row]) putHolds
          exact ⟨next, by simp [step, run], by simpa [parsed] using nextHolds⟩

/-- Loading always ends, with the last row of every key in the index. -/
theorem loadLatestRows_holds (z : Zlib) (file : Bytes) :
    ∃ index, loadLatestRows z file = some index ∧ Holds hashKey index (dbRows z file) := by
  obtain ⟨index, run, holds⟩ := loadLines_holds z (pieces lf file) rowIndexEmpty [] holds_empty
  exact ⟨index, run, by simpa [dbRows] using holds⟩

theorem loadLatestRow_eq (z : Zlib) (file key : Bytes) :
    loadLatestRow z file key = some (latestRow z file key) := by
  obtain ⟨index, run, holds⟩ := loadLatestRows_holds z file
  simp only [loadLatestRow, run, Option.bind_eq_bind, Option.bind_some]
  exact rowIndexGet_spec holds key

theorem cutLine_clean (line : Bytes) : ∀ b ∈ cutLine line, b ≠ nul ∧ b ≠ lf ∧ b ≠ cr := by
  intro b hb
  have kept := List.mem_takeWhile_imp hb
  simp only [Bool.and_eq_true, decide_eq_true_eq] at kept
  exact ⟨kept.1.1, kept.2, kept.1.2⟩

theorem dbRows_storable (z : Zlib) (file : Bytes) : ∀ row ∈ dbRows z file, Storable row := by
  intro row mem
  obtain ⟨line, _, parsed⟩ := List.mem_filterMap.mp mem
  exact parseDbRow_storable (cutLine_clean line) parsed

theorem latestRow_storable {z : Zlib} {file key : Bytes} {row : Row}
    (h : latestRow z file key = some row) : Storable row :=
  dbRows_storable z file row (lastWrite_mem h)

theorem dbRows_append (z : Zlib) {file : Bytes} (closed : Closed lf file) (more : Bytes) :
    dbRows z (file ++ more) = dbRows z file ++ dbRows z more := by
  rw [dbRows, pieces_append closed, List.filterMap_append]
  rfl

theorem cutLine_rowText {key stored : Bytes} (keyClean : ∀ b ∈ key, FieldByte b)
    (storedClean : ∀ b ∈ stored, FieldByte b) (expireAt : Int) :
    cutLine (rowText key stored expireAt ++ [lf]) = rowText key stored expireAt := by
  have kept : ∀ b ∈ rowText key stored expireAt, b ≠ nul ∧ b ≠ cr ∧ b ≠ lf := by
    intro b hb
    simp only [rowText, List.mem_append, List.mem_cons] at hb
    rcases hb with here | rfl | here | rfl | here
    · exact ⟨(keyClean b here).1, (keyClean b here).2.2.2, (keyClean b here).2.2.1⟩
    · decide
    · exact ⟨(storedClean b here).1, (storedClean b here).2.2.2, (storedClean b here).2.2.1⟩
    · decide
    · have clean := decimal_clean expireAt b here
      exact ⟨clean.1, clean.2.2.2, clean.2.2.1⟩
  rw [cutLine, List.takeWhile_append_of_pos (by simpa [and_assoc] using kept)]
  simp

theorem lf_not_mem_rowText {key stored : Bytes} (keyClean : lf ∉ key)
    (storedClean : ∀ b ∈ stored, FieldByte b) (expireAt : Int) :
    lf ∉ rowText key stored expireAt := by
  simp only [rowText, List.mem_append, List.mem_cons, not_or]
  exact ⟨keyClean, by decide, fun h => (storedClean lf h).2.2.1 rfl, by decide,
    fun h => (decimal_clean expireAt lf h).2.2.1 rfl⟩

theorem rowLines_rowText {z : Zlib} {row : Row} (storable : Storable row) {stored : Bytes}
    (written : storedValue z row.value = some stored) :
    rowLines z (rowText row.key stored row.expireAt ++ [lf]) = [some row] := by
  have storedClean := storedValue_clean written
  have oneLine := lf_not_mem_rowText (fun h => (storable.key_clean lf h).2.2.1 rfl) storedClean
    row.expireAt
  rw [rowLines, pieces_line oneLine]
  simp [cutLine_rowText storable.key_clean storedClean, parseDbRow_rowText storable written]

/-- Appending to a file whose last line is finished adds exactly the line of the row. -/
theorem rowLines_appendDbRow {z : Zlib} {file file' : Bytes} (closed : Closed lf file) {row : Row}
    (storable : Storable row)
    (appended : appendDbRow z file row.key row.value row.expireAt = some file') :
    rowLines z file' = rowLines z file ++ [some row] ∧ Closed lf file' := by
  rw [appendDbRow_eq] at appended
  obtain ⟨stored, written, rfl⟩ := Option.map_eq_some_iff.mp appended
  rw [← rowLines_rowText storable written, rowLines, pieces_append closed, List.map_append]
  exact ⟨rfl, closed_append closed (closed_line _)⟩

theorem dbRows_eq_rowLines (z : Zlib) (file : Bytes) :
    dbRows z file = (rowLines z file).filterMap id := by
  simp [dbRows, rowLines, List.filterMap_map]

theorem dbRows_appendDbRow {z : Zlib} {file file' : Bytes} (closed : Closed lf file) {row : Row}
    (storable : Storable row)
    (appended : appendDbRow z file row.key row.value row.expireAt = some file') :
    dbRows z file' = dbRows z file ++ [row] ∧ Closed lf file' := by
  obtain ⟨lines, closed'⟩ := rowLines_appendDbRow closed storable appended
  exact ⟨by simp [dbRows_eq_rowLines, lines], closed'⟩

theorem latestRow_of_unclean {z : Zlib} {file key : Bytes} (unclean : ¬ ∀ b ∈ key, FieldByte b) :
    latestRow z file key = none := by
  cases h : latestRow z file key with
  | none => rfl
  | some row => exact absurd (lastWrite_key h ▸ (latestRow_storable h).key_clean) unclean

end StreamDataPipeline.ClipStore.Query
