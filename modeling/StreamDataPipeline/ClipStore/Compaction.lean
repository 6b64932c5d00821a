/- Compaction of a database file (db_compact). -/

import Mathlib.Data.List.Nodup
import StreamDataPipeline.ClipStore.Query
import StreamDataPipeline.Lib.Libpipeline

set_option autoImplicit false
set_option relaxedAutoImplicit false

namespace StreamDataPipeline.ClipStore.Compaction

open Foundations.ByteString Foundations.Lines Foundations.LastWrite Foundations.LinearProbing
  Lib.Libpipeline
open Format BucketIndex Query

/-- One turn of the writing loop over the buckets. -/
def appendLiveRow (z : Zlib) (now : Int) (tmp : Bytes) : Option Row → Option Bytes
  | none => some tmp
  | some row =>
      if !rowIsLive row now then some tmp
      else appendDbRow z tmp row.key row.value row.expireAt

/-- The content that is renamed over the database path; `none` is the return value -1,
which leaves the path alone. -/
def dbRewriteCompact (z : Zlib) (file dbPath : Bytes) (now : Int) : Option Bytes := do
  let rows ← loadLatestRows z file
  if pathMax ≤ (dbPath ++ ascii ".tmp").length then none
  else rows.buckets.foldlM (appendLiveRow z now) []

/-- The row that a lookup prints at a time. -/
def liveLookup (z : Zlib) (file key : Bytes) (now : Int) : Option (Option Row) :=
  (loadLatestRow z file key).map fun found => found.filter fun row => rowIsLive row now

theorem liveLookup_eq (z : Zlib) (file key : Bytes) (now : Int) :
    liveLookup z file key now =
      some ((latestRow z file key).filter fun row => rowIsLive row now) := by
  rw [liveLookup, loadLatestRow_eq, Option.map_some]

theorem rowIsLive_earlier {row : Row} {now later : Int} (order : now ≤ later)
    (live : rowIsLive row later = true) : rowIsLive row now = true := by
  simp only [rowIsLive, clipRowIsTombstone, clipRowIsExpired, Bool.and_eq_true, Bool.not_eq_true',
    decide_eq_false_iff_not, Bool.and_eq_false_iff] at live ⊢
  refine ⟨live.1, live.2.imp id fun h => ?_⟩
  omega

private theorem appendLive_run {z : Zlib} {now : Int} (buckets : List (Option Row))
    (storable : ∀ e ∈ entries buckets, Storable e) {tmp out : Bytes} (closed : Closed lf tmp)
    (run : buckets.foldlM (appendLiveRow z now) tmp = some out) :
    rowLines z out =
        rowLines z tmp ++ ((entries buckets).filter fun row => rowIsLive row now).map some ∧
      Closed lf out ∧
      ∀ e ∈ entries buckets, rowIsLive e now = true → (storedValue z e.value).isSome := by
  induction buckets generalizing tmp with
  | nil =>
      cases run
      simpa [entries] using closed
  | cons bucket rest ih =>
      cases bucket with
      | none => exact ih storable closed run
      | some row =>
          have split : entries (some row :: rest) = row :: entries rest := rfl
          simp only [split, List.forall_mem_cons] at storable ⊢
          simp only [List.foldlM_cons, appendLiveRow, Option.bind_eq_bind,
            Option.bind_eq_some_iff] at run
          obtain ⟨next, step, run⟩ := run
          by_cases live : rowIsLive row now = true
          · simp only [live, Bool.not_true, Bool.false_eq_true, if_false] at step
            obtain ⟨lines, nextClosed⟩ := rowLines_appendDbRow closed storable.1 step
            obtain ⟨all, outClosed, writable⟩ := ih storable.2 nextClosed run
            have written : (storedValue z row.value).isSome := by
              rw [appendDbRow_eq] at step
              obtain ⟨stored, written, _⟩ := Option.map_eq_some_iff.mp step
              simp [written]
            refine ⟨?_, outClosed, fun _ => written, writable⟩
            simp [all, lines, live]
          · have dead : rowIsLive row now = false := by simpa using live
            simp only [dead, Bool.not_false, if_true, Option.some.injEq] at step
            subst step
            obtain ⟨all, outClosed, writable⟩ := ih storable.2 closed run
            exact ⟨by simp [all, dead], outClosed, fun h => absurd h live, writable⟩

private theorem appendLive_succeeds {z : Zlib} {now : Int} (buckets : List (Option Row))
    (writable : ∀ e ∈ entries buckets, rowIsLive e now = true → (storedValue z e.value).isSome)
    (tmp : Bytes) : ∃ out, buckets.foldlM (appendLiveRow z now) tmp = some out := by
  induction buckets generalizing tmp with
  | nil => exact ⟨tmp, rfl⟩
  | cons bucket rest ih =>
      cases bucket with
      | none => exact ih writable tmp
      | some row =>
          have split : entries (some row :: rest) = row :: entries rest := rfl
          simp only [split, List.forall_mem_cons] at writable
          by_cases live : rowIsLive row now = true
          · obtain ⟨stored, written⟩ := Option.isSome_iff_exists.mp (writable.1 live)
            obtain ⟨out, run⟩ :=
              ih writable.2 (tmp ++ (rowText row.key stored row.expireAt ++ [lf]))
            exact ⟨out, by simp [appendLiveRow, live, appendDbRow_eq, written, run]⟩
          · obtain ⟨out, run⟩ := ih writable.2 tmp
            exact ⟨out, by simp [appendLiveRow, live, run]⟩

/-- The rewritten file holds the live rows of some index of the old file, one on each line. -/
structure Rewritten (z : Zlib) (file out : Bytes) (now : Int) (rows : List Row) : Prop where
  lines : rowLines z out = rows.map some
  nodup : (rows.map Row.key).Nodup
  live_iff : ∀ row, row ∈ rows ↔ latestRow z file row.key = some row ∧ rowIsLive row now = true
  writable : ∀ row ∈ rows, (storedValue z row.value).isSome

theorem rewritten_of_holds {z : Zlib} {file out : Bytes} {now : Int} {index : RowIndex}
    (holds : Holds hashKey index (Query.dbRows z file))
    (run : index.buckets.foldlM (appendLiveRow z now) [] = some out) :
    Rewritten z file out now ((entries index.buckets).filter fun row => rowIsLive row now) := by
  have storable : ∀ e ∈ entries index.buckets, Storable e := fun e he =>
    latestRow_storable ((holds.latest e).mp he)
  obtain ⟨lines, _, writable⟩ := appendLive_run index.buckets storable (.inl rfl) run
  refine ⟨lines, ?_, ?_, ?_⟩
  · exact holds.nodup.sublist (List.filter_sublist.map Row.key)
  · intro row
    rw [List.mem_filter, holds.latest row]
    rfl
  · intro row mem
    exact writable row (List.mem_filter.mp mem).1 (List.mem_filter.mp mem).2

theorem dbRewriteCompact_rewritten {z : Zlib} {file dbPath out : Bytes} {now : Int}
    (compacted : dbRewriteCompact z file dbPath now = some out) :
    ∃ rows, Rewritten z file out now rows := by
  obtain ⟨index, loaded, holds⟩ := loadLatestRows_holds z file
  simp only [dbRewriteCompact, loaded, Option.bind_eq_bind, Option.bind_some] at compacted
  split_ifs at compacted with short
  exact ⟨_, rewritten_of_holds holds compacted⟩

theorem Rewritten.dbRows {z : Zlib} {file out : Bytes} {now : Int} {rows : List Row}
    (rewritten : Rewritten z file out now rows) : dbRows z out = rows := by
  rw [dbRows_eq_rowLines, rewritten.lines]
  simp [List.filterMap_map]

/-- In the rewritten file a key finds its live row of the old file, or nothing. -/
theorem Rewritten.latestRow {z : Zlib} {file out : Bytes} {now : Int} {rows : List Row}
    (rewritten : Rewritten z file out now rows) (key : Bytes) :
    latestRow z out key = (latestRow z file key).filter fun row => rowIsLive row now := by
  ext row
  rw [Query.latestRow, rewritten.dbRows, lastWrite_of_nodup rewritten.nodup,
    rewritten.live_iff, Option.filter_eq_some_iff]
  constructor
  · rintro ⟨found, rfl⟩
    exact found
  · rintro ⟨found, live⟩
    have same := lastWrite_key found
    exact ⟨⟨same ▸ found, live⟩, same⟩

private theorem Rewritten.again {z : Zlib} {file dbPath out : Bytes} {now : Int} {rows : List Row}
    (rewritten : Rewritten z file out now rows)
    (short : ¬ pathMax ≤ (dbPath ++ ascii ".tmp").length) :
    ∃ out', dbRewriteCompact z out dbPath now = some out' ∧
      (Query.dbRows z out').Perm (Query.dbRows z out) := by
  obtain ⟨index, loaded, holds⟩ := loadLatestRows_holds z out
  have found_iff : ∀ row, row ∈ rows ↔
      Query.latestRow z out row.key = some row ∧ rowIsLive row now = true := by
    intro row
    rw [rewritten.latestRow, Option.filter_eq_some_iff, and_assoc, and_self]
    exact rewritten.live_iff row
  obtain ⟨out', run⟩ := appendLive_succeeds index.buckets
    (fun e he live => rewritten.writable e ((found_iff e).mpr ⟨(holds.latest e).mp he, live⟩)) []
  have compacted : dbRewriteCompact z out dbPath now = some out' := by
    simp only [dbRewriteCompact, loaded, Option.bind_eq_bind, Option.bind_some, if_neg short]
    exact run
  obtain ⟨rows', rewritten'⟩ := dbRewriteCompact_rewritten compacted
  refine ⟨out', compacted, ?_⟩
  rw [rewritten'.dbRows, rewritten.dbRows]
  apply (List.perm_ext_iff_of_nodup (List.Nodup.of_map Row.key rewritten'.nodup)
    (List.Nodup.of_map Row.key rewritten.nodup)).mpr
  intro row
  rw [rewritten'.live_iff, found_iff]

/-- What compaction at a time promises about every later lookup, about the rewritten file
and about compacting again. -/
structure Invisible (z : Zlib) (file out dbPath : Bytes) (now : Int) : Prop where
  lookups : ∀ key later, now ≤ later → liveLookup z out key later = liveLookup z file key later
  lines : ∃ rows : List Row, rowLines z out = rows.map some ∧ (rows.map Row.key).Nodup ∧
    ∀ row, row ∈ rows ↔ liveLookup z file row.key now = some (some row)
  again : ∃ out', dbRewriteCompact z out dbPath now = some out' ∧
    (Query.dbRows z out').Perm (Query.dbRows z out)

/-- A successful compaction of any file content is invisible to every later lookup. -/
theorem dbRewriteCompact_invisible {z : Zlib} {file dbPath out : Bytes} {now : Int}
    (compacted : dbRewriteCompact z file dbPath now = some out) :
    Invisible z file out dbPath now := by
  obtain ⟨rows, rewritten⟩ := dbRewriteCompact_rewritten compacted
  have short : ¬ pathMax ≤ (dbPath ++ ascii ".tmp").length := by
    intro long
    obtain ⟨index, loaded, _⟩ := loadLatestRows_holds z file
    simp only [dbRewriteCompact, loaded, Option.bind_eq_bind, Option.bind_some, if_pos long]
      at compacted
    cases compacted
  refine ⟨?_, ⟨rows, rewritten.lines, rewritten.nodup, ?_⟩, rewritten.again short⟩
  · intro key later order
    rw [liveLookup_eq, liveLookup_eq, rewritten.latestRow, Option.filter_filter]
    congr 2
    funext row
    cases live : rowIsLive row later with
    | false => simp
    | true => simp [rowIsLive_earlier order live]
  · intro row
    rw [rewritten.live_iff, liveLookup_eq, Option.some.injEq, Option.filter_eq_some_iff]

/-- A line that is no row, an overwritten row, a tombstone, and an expired row without a
line end. -/
def mixedDb : Bytes := ascii "junk\nb\tv\t0\nb\tw\t0\nc\tv\t0\nc\t\t0\nd\tx\t5"

theorem dbRewriteCompact_invisible_mixed :
    ∃ out, dbRewriteCompact storedZlib mixedDb (ascii "db") 10 = some out ∧
      Invisible storedZlib mixedDb out (ascii "db") 10 :=
  ⟨(dbRewriteCompact storedZlib mixedDb (ascii "db") 10).getD [], by decide +kernel,
    dbRewriteCompact_invisible (by decide +kernel)⟩

end StreamDataPipeline.ClipStore.Compaction
