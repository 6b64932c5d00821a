/- One run of the clip_store applet (clip_store.c). -/

import StreamDataPipeline.ClipStore.Compaction
import StreamDataPipeline.Lib.JsonlCodec

/-!
A run works on the content of the database file. The clock gives the results of the
successive calls of `time`; they count seconds from the epoch. An expiry time beyond
`long` has no defined value in C; here it wraps around, as the addition of the machine does.
-/

set_option autoImplicit false
set_option relaxedAutoImplicit false

namespace StreamDataPipeline.ClipStore.Main

open Foundations.ByteString Foundations.Lines Foundations.Decimal Foundations.LinearProbing
open Lib.JsonlCodec Format BucketIndex Query Compaction

inductive ClipMode
  | append (stdin : Bytes)
  | set (arg : Bytes)
  | get (key : Bytes)
  | list
  | listPrefix (start : Bytes)
  | delete (key : Bytes)
  | compact
  deriving DecidableEq

/-- The arguments of a run with the last mode option, and the clock. -/
structure Invocation where
  db : Bytes
  ttlArg : Bytes
  mode : ClipMode
  clock : Nat → Nat

structure Outcome where
  stdout : Bytes
  status : Nat
  deriving DecidableEq

/-- The check of the `--ttl` argument. -/
def parseTtl (ttlArg : Bytes) : Option Int :=
  match strtolWhole ttlArg with
  | some ttl => if ttl < 0 then none else some ttl
  | none => none

theorem parseTtl_range {ttlArg : Bytes} {ttl : Int} (given : parseTtl ttlArg = some ttl) :
    0 ≤ ttl ∧ IsLong ttl := by
  unfold parseTtl at given
  split at given
  · rename_i v read
    split_ifs at given with negative
    cases given
    exact ⟨by omega, strtolWhole_long read⟩
  · cases given

/-- Key and value around the first `=`; `none` is the return value -1. -/
def parseSetExpr (arg : Bytes) : Option (Bytes × Bytes) :=
  match strchr 61 arg with
  | some (key, value) => if key = [] then none else some (key, value)
  | none => none

def expireAt (ttl : Int) (now : Nat) : Int := if ttl = 0 then 0 else longAdd now ttl

theorem expireAt_long (ttl : Int) (now : Nat) : IsLong (expireAt ttl now) := by
  unfold expireAt
  split_ifs with forever
  · decide
  · exact longAdd_long now ttl

/-- The key of a clip: `session_id:ts`. -/
def clipKey (session : Bytes) (ts : Int) : Bytes := session ++ 58 :: decimal ts

theorem clipKey_clean_iff (session : Bytes) (ts : Int) :
    (∀ b ∈ clipKey session ts, FieldByte b) ↔ ∀ b ∈ session, FieldByte b := by
  rw [clipKey, List.forall_mem_append, List.forall_mem_cons]
  exact ⟨And.left, fun clean => ⟨clean, by decide, decimal_clean ts⟩⟩

/-- The line as a C string without the line end characters behind it. -/
def stripLine (line : Bytes) : Bytes :=
  ((cstr line).reverse.dropWhile fun b => b == lf || b == cr).reverse

/-- The key and the value of a line in append mode; `none` is a skipped line. -/
def clipRecord (c : CJson) (line : Bytes) : Option (Bytes × Bytes) := do
  let text := stripLine line
  let session ← jsonlGetString c text (ascii "session_id") 128
  let ts ← jsonlGetInt64 c text (ascii "ts")
  pure (clipKey session ts, text)

/-- The reading loop of append mode: the file and the exit status. `calls` counts the
calls of `time` so far. -/
def appendLoop (c : CJson) (z : Zlib) (ttl : Int) (clock : Nat → Nat) :
    List Bytes → Nat → Bytes → Bytes × Nat
  | [], _, file => (file, 0)
  | line :: rest, calls, file =>
      match clipRecord c line with
      | none => appendLoop c z ttl clock rest calls file
      | some (key, value) =>
          match appendDbRow z file key value (expireAt ttl (clock calls)) with
          | some file => appendLoop c z ttl clock rest (calls + 1) file
          | none => (file, 1)

/-- What the printing loop writes for one bucket. -/
def printBucket (start : Option Bytes) (now : Int) : Option Row → Bytes
  | none => []
  | some row =>
      if !rowIsLive row now then []
      else if start.any fun s => !(s.isPrefixOf row.key) then []
      else row.key ++ [tab] ++ row.value ++ [lf]

/-- `none` is the return value -1. -/
def printRows (z : Zlib) (file : Bytes) (start : Option Bytes) (now : Int) : Option Bytes := do
  let rows ← loadLatestRows z file
  pure (rows.buckets.flatMap (printBucket start now))

/-- What is printed for a row that is selected. -/
def printRow (row : Row) : Bytes := row.key ++ [tab] ++ row.value ++ [lf]

private theorem flatMap_entries (start : Option Bytes) (now : Int) (buckets : List (Option Row)) :
    buckets.flatMap (printBucket start now) =
      (entries buckets).flatMap fun row => printBucket start now (some row) := by
  induction buckets with
  | nil => rfl
  | cons bucket rest ih =>
      cases bucket with
      | none => exact ih
      | some row =>
          rw [List.flatMap_cons, ih]
          rfl

/-- The rows that `--list` and `--prefix` select. -/
private def selected (start : Bytes) (now : Int) (row : Row) : Bool :=
  rowIsLive row now && start.isPrefixOf row.key

private theorem flatMap_selected (start : Option Bytes) (now : Int) (rows : List Row) :
    (rows.flatMap fun row => printBucket start now (some row)) =
      (rows.filter (selected (start.getD []) now)).flatMap printRow := by
  induction rows with
  | nil => rfl
  | cons row rest ih =>
      rw [List.flatMap_cons, ih, List.filter_cons]
      cases start with
      | none =>
          by_cases live : rowIsLive row now = true <;>
            simp [printBucket, printRow, selected, live]
      | some s =>
          by_cases live : rowIsLive row now = true <;>
            by_cases matched : s.isPrefixOf row.key = true <;>
              simp [printBucket, printRow, selected, live, matched]

/-- Printing always ends, with the latest rows that are live and match, each of them once. -/
theorem printRows_spec (z : Zlib) (file : Bytes) (start : Option Bytes) (now : Int) :
    ∃ rows : List Row, (rows.map Row.key).Nodup ∧
      printRows z file start now = some (rows.flatMap printRow) ∧
      ∀ row, row ∈ rows ↔ latestRow z file row.key = some row ∧ rowIsLive row now = true ∧
        start.getD [] <+: row.key := by
  obtain ⟨index, loaded, holds⟩ := loadLatestRows_holds z file
  refine ⟨(entries index.buckets).filter (selected (start.getD []) now), ?_, ?_, ?_⟩
  · exact holds.nodup.sublist (List.filter_sublist.map Row.key)
  · rw [printRows, loaded, Option.bind_eq_bind, Option.bind_some, flatMap_entries,
      flatMap_selected]
    rfl
  · intro row
    rw [List.mem_filter, holds.latest, selected, Bool.and_eq_true, List.isPrefixOf_iff_prefix]
    exact Iff.rfl

/-- The file after the run and the outcome of the run. -/
def clipStoreMain (c : CJson) (z : Zlib) (file : Bytes) (args : Invocation) : Bytes × Outcome :=
  match parseTtl args.ttlArg with
  | none => (file, ⟨[], 1⟩)
  | some ttl =>
      let now := args.clock 0
      match args.mode with
      | .get key => match loadLatestRow z file key with
        | none => (file, ⟨[], 1⟩)
        | some none => (file, ⟨[], 0⟩)
        | some (some row) =>
            (file, ⟨if rowIsLive row now then row.value ++ [lf] else [], 0⟩)
      | .set arg => match parseSetExpr arg with
        | none => (file, ⟨[], 1⟩)
        | some (key, value) =>
            if value = [] then (file, ⟨[], 1⟩)
            else match appendDbRow z file key value (expireAt ttl now) with
              | some file => (file, ⟨[], 0⟩)
              | none => (file, ⟨[], 1⟩)
      | .delete key =>
          if key = [] then (file, ⟨[], 1⟩)
          else match appendDbRow z file key [] 0 with
            | some file => (file, ⟨[], 0⟩)
            | none => (file, ⟨[], 1⟩)
      | .list => match printRows z file none now with
        | some out => (file, ⟨out, 0⟩)
        | none => (file, ⟨[], 1⟩)
      | .listPrefix start => match printRows z file (some start) now with
        | some out => (file, ⟨out, 0⟩)
        | none => (file, ⟨[], 1⟩)
      | .compact => match dbRewriteCompact z file args.db now with
        | some file => (file, ⟨[], 0⟩)
        | none => (file, ⟨[], 1⟩)
      | .append stdin =>
          let (file, status) := appendLoop c z ttl args.clock (pieces lf stdin) 1 file
          (file, ⟨[], status⟩)

end StreamDataPipeline.ClipStore.Main
