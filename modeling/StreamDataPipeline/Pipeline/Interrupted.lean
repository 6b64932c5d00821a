/- What the database holds while the three processes run, or when they are stopped. -/

import StreamDataPipeline.ClipStore.Crash
import StreamDataPipeline.Pipeline.ProcessChain

set_option autoImplicit false
set_option relaxedAutoImplicit false

namespace StreamDataPipeline.Pipeline.Interrupted

open Foundations Foundations.ByteString Foundations.Lines Foundations.LastWrite
  Foundations.PipeChain
open Lib.JsonlCodec LogParse.FilterExpr LogParse.JsonlMode
open ClipStore.Format ClipStore.Query ClipStore.Main ClipStore.WriteFailures ClipStore.Crash
open ProcessChain

/-- The rows that append mode prints: up to the first one whose value is not compressed. -/
def printedRows (c : CJson) (z : Zlib) (ttl : Int) (clock : Nat → Nat) (lines : List Bytes)
    (calls : Nat) : List Row :=
  (clipRows c ttl clock lines calls).takeWhile fun row => (rowLine z row).isSome

theorem linesOut_storeLine (c : CJson) (z : Zlib) (ttl : Int) (clock : Nat → Nat)
    (lines : List Bytes) (calls : Nat) :
    linesOut (storeLine c z ttl clock) calls lines =
      rowsText z (printedRows c z ttl clock lines calls) := by
  induction lines generalizing calls with
  | nil => rfl
  | cons line rest ih =>
      rw [linesOut_cons, storeLine, printedRows, clipRows]
      cases clipRecord c line with
      | none => exact ih calls
      | some pair =>
          obtain ⟨key, value⟩ := pair
          dsimp only
          cases printed : rowLine z ⟨key, value, expireAt ttl (clock calls)⟩ with
          | none => simp [rowsText, printed]
          | some text =>
              rw [List.takeWhile_cons_of_pos (by rw [printed]; rfl), Option.elim_some,
                ih (calls + 1)]
              simp [rowsText, printed, printedRows]

theorem clipRows_storable {c : CJson} {ttl : Int} {clock : Nat → Nat} {lines : List Bytes}
    {calls : Nat}
    (clean : ∀ row ∈ clipRows c ttl clock lines calls, ∀ b ∈ row.key, FieldByte b) :
    ∀ row ∈ clipRows c ttl clock lines calls, Storable row := by
  induction lines generalizing calls with
  | nil => simp [clipRows]
  | cons line rest ih =>
      rw [clipRows] at clean ⊢
      cases record : clipRecord c line with
      | none =>
          rw [record] at clean
          exact ih clean
      | some pair =>
          rw [record] at clean
          rw [List.forall_mem_cons] at clean ⊢
          refine ⟨⟨clean.1, ?_, expireAt_long ttl (clock calls)⟩, ih clean.2⟩
          -- the value is the beginning of a C string
          have value : stripLine line = pair.2 := by
            simp only [clipRecord, Option.bind_eq_bind, Option.bind_eq_some_iff] at record
            obtain ⟨session, -, ts, -, equal⟩ := record
            exact congrArg Prod.snd (Option.some.inj equal)
          intro mem
          rw [← value, stripLine, List.mem_reverse] at mem
          exact nul_not_mem_cstr line
            (List.mem_reverse.mp ((List.dropWhile_sublist _).subset mem))

theorem rows_of_run (c : CJson) (z : Zlib) (filter : Option LogFilter) (ttl : Int)
    (clock : Nat → Nat) {file : Bytes} (closed : Closed lf file) (printed : Bytes)
    (clean : ∀ row ∈ clipRows c ttl clock (pieces lf (jsonlMode c filter printed).1) 1,
      ∀ b ∈ row.key, FieldByte b)
    {sizes : Sizes} {schedule : List (Nat × Action)} {sys : List (Stage UInt8) × Bytes}
    (ran : Schedule.run step (pipelineStages c z filter ttl clock printed sizes, file) schedule =
      some sys) :
    let rows := printedRows c z ttl clock (pieces lf (jsonlMode c filter printed).1) 1
    ∃ k cut, sys.2 = file ++ (rowsText z (rows.take k) ++ cut) ∧ lf ∉ cut ∧
      dbRows z sys.2 = dbRows z file ++ (rows.take k ++ dbRows z cut) ∧
      (dbRows z cut).length ≤ 1 ∧
      ∀ torn ∈ dbRows z cut, ∃ row, rows[k]? = some row ∧ TornOf row torn := by
  intro rows
  have storable : ∀ row ∈ rows, Storable row := fun row mem =>
    clipRows_storable clean row ((List.takeWhile_sublist _).subset mem)
  have printable : ∀ row ∈ rows, (rowLine z row).isSome := fun row mem =>
    List.mem_takeWhile_imp (p := fun row => (rowLine z row).isSome) mem
  obtain ⟨out, grown, begins⟩ := run_extends ran
  rw [remaining_pipelineStages, linesOut_storeLine] at begins
  obtain ⟨k, cut, bytes, single, read, few, torn⟩ :=
    rowsText_take z storable printable out.length
  rw [← List.prefix_iff_eq_take.mp begins] at bytes
  have all : dbRows z sys.2 = dbRows z file ++ (rows.take k ++ dbRows z cut) := by
    rw [grown, bytes, dbRows_append z closed, read]
  exact ⟨k, cut, by rw [grown, bytes], single, all, few, torn⟩

/-- A live row that is found, torn or not, stands for a whole row of the same key and value. -/
theorem whole_of_latest {z : Zlib} {file stored cut : Bytes} {rows : List Row} {k : Nat}
    (all : dbRows z stored = dbRows z file ++ (rows.take k ++ dbRows z cut))
    (torn : ∀ torn ∈ dbRows z cut, ∃ row, rows[k]? = some row ∧ TornOf row torn)
    {key : Bytes} {row : Row} {now : Int} (era : 0 ≤ now)
    (found : latestRow z stored key = some row) (live : rowIsLive row now = true) :
    ∃ whole ∈ dbRows z file ++ rows, whole.key = key ∧ whole.value = row.value ∧
      rowIsLive whole now = true := by
  have mem := lastWrite_mem found
  rw [all, List.mem_append, List.mem_append] at mem
  rcases mem with old | finished | cutRow
  · exact ⟨row, List.mem_append_left _ old, lastWrite_key found, rfl, live⟩
  · exact ⟨row, List.mem_append_right _ (List.mem_of_mem_take finished), lastWrite_key found, rfl,
      live⟩
  · obtain ⟨whole, next, tornOf⟩ := torn row cutRow
    exact ⟨whole, List.mem_append_right _ (List.mem_of_getElem? next),
      tornOf.key.symm.trans (lastWrite_key found), tornOf.value.symm, tornOf.live era live⟩

/-- The row that is cut hides no row of another key. -/
theorem latest_of_other {z : Zlib} {file stored cut : Bytes} {rows : List Row} {k : Nat}
    (all : dbRows z stored = dbRows z file ++ (rows.take k ++ dbRows z cut))
    (torn : ∀ torn ∈ dbRows z cut, ∃ row, rows[k]? = some row ∧ TornOf row torn)
    {key : Bytes} (other : ∀ row, rows[k]? = some row → row.key ≠ key) :
    latestRow z stored key = lastWrite Row.key (dbRows z file ++ rows.take k) key := by
  have hidden : lastWrite Row.key (dbRows z cut) key = none := by
    rw [lastWrite_eq_none, List.mem_map]
    rintro ⟨cutRow, mem, rfl⟩
    obtain ⟨row, next, tornOf⟩ := torn cutRow mem
    exact other row next tornOf.key.symm
  rw [latestRow, all, ← List.append_assoc, lastWrite_append, hidden, Option.none_or]

/-- At every moment of every run of the three processes the file holds, behind what it held
before, the first rows of the run and the first bytes of the next one. Of these bytes a row is
read at most once, with the key and the value of the next row and with some last digits missing
in its expiry time. Under every other key, what was stored before and by the first rows is
found. -/
theorem interrupted_rows (c : CJson) (z : Zlib) (filter : Option LogFilter) (ttl : Int)
    (clock : Nat → Nat) {file : Bytes} (closed : Closed lf file) (printed : Bytes)
    (clean : ∀ row ∈ clipRows c ttl clock (pieces lf (jsonlMode c filter printed).1) 1,
      ∀ b ∈ row.key, FieldByte b)
    {sizes : Sizes} {schedule : List (Nat × Action)} {sys : List (Stage UInt8) × Bytes}
    (ran : Schedule.run step (pipelineStages c z filter ttl clock printed sizes, file) schedule =
      some sys) :
    let rows := printedRows c z ttl clock (pieces lf (jsonlMode c filter printed).1) 1
    ∃ k cut, sys.2 = file ++ (rowsText z (rows.take k) ++ cut) ∧ lf ∉ cut ∧
      dbRows z sys.2 = dbRows z file ++ (rows.take k ++ dbRows z cut) ∧
      (dbRows z cut).length ≤ 1 ∧
      (∀ torn ∈ dbRows z cut, ∃ row, rows[k]? = some row ∧ TornOf row torn) ∧
      (∀ key row now, 0 ≤ now → latestRow z sys.2 key = some row → rowIsLive row now = true →
        ∃ whole ∈ dbRows z file ++ rows, whole.key = key ∧ whole.value = row.value ∧
          rowIsLive whole now = true) ∧
      ∀ key, (∀ row, rows[k]? = some row → row.key ≠ key) →
        latestRow z sys.2 key = lastWrite Row.key (dbRows z file ++ rows.take k) key := by
  intro rows
  obtain ⟨k, cut, bytes, single, all, few, torn⟩ :=
    rows_of_run c z filter ttl clock closed printed clean ran
  refine ⟨k, cut, bytes, single, all, few, torn, ?_, ?_⟩
  · intro key row now era found live
    exact whole_of_latest all torn era found live
  · intro key other
    exact latest_of_other all torn other

def wide : Sizes := ⟨64, 64, 0, 0⟩

/-- clip_store has written its row up to the second digit of the expiry time. -/
def stopped : List (Nat × Action) :=
  [(2, .write 63), (1, .read 63), (1, .write 63), (0, .read 63), (0, .write 56)]

def clipA : Bytes := ascii "\x7b\"session_id\":\"a\",\"ts\":1\x7d"

theorem interrupted_rows_stopped :
    ∃ sys, Schedule.run step (pipelineStages (.ofDialect Json.exactDialect) storedZlib none 60
        (fun _ => 1000) (clipA ++ [lf]) wide, ascii "b\t\t0\n") stopped = some sys ∧
      dbRows storedZlib sys.2 = [⟨ascii "b", [], 0⟩, ⟨ascii "a:1", clipA, 10⟩] ∧
      ∃ k cut, dbRows storedZlib sys.2 = dbRows storedZlib (ascii "b\t\t0\n") ++
        ((printedRows (.ofDialect Json.exactDialect) storedZlib 60 (fun _ => 1000)
          (pieces lf (jsonlMode (.ofDialect Json.exactDialect) none (clipA ++ [lf])).1) 1).take k ++
            dbRows storedZlib cut) := by
  have runs : (Schedule.run step (pipelineStages (.ofDialect Json.exactDialect) storedZlib none 60
      (fun _ => 1000) (clipA ++ [lf]) wide, ascii "b\t\t0\n") stopped).map
        (fun sys => dbRows storedZlib sys.2) =
      some [⟨ascii "b", [], 0⟩, ⟨ascii "a:1", clipA, 10⟩] := by decide +kernel
  obtain ⟨sys, ran, rows⟩ := Option.map_eq_some_iff.mp runs
  obtain ⟨k, cut, -, -, read, -⟩ := interrupted_rows (.ofDialect Json.exactDialect) storedZlib none
    60 (fun _ => 1000) (.inr rfl) (clipA ++ [lf]) (by decide +kernel) ran
  exact ⟨sys, ran, rows, k, cut, read⟩

end StreamDataPipeline.Pipeline.Interrupted
