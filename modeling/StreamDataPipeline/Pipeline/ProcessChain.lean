/- The three applets as processes that are joined by two pipes. -/

import StreamDataPipeline.Foundations.PipeChain
import StreamDataPipeline.ClipStore.Main
import StreamDataPipeline.LogParse.JsonlMode

/-!
stream_merge writes what it prints, log_parse and clip_store read line by line. Any of them
may run at any time, with reads and writes of any size and pipes of any capacity. What they
write goes through the buffer of standard output, or of the database stream.
-/

set_option autoImplicit false
set_option relaxedAutoImplicit false

namespace StreamDataPipeline.Pipeline.ProcessChain

open Foundations Foundations.ByteString Foundations.Lines Foundations.PipeChain
open Lib.JsonlCodec LogParse.FilterExpr LogParse.JsonlMode ClipStore.Format ClipStore.Main

/-- The loop of log_parse over the lines of standard input. -/
abbrev logParseProgram (c : CJson) (filter : Option LogFilter) : Program UInt8 :=
  lineProgram lf fun (_ : Unit) line => (some (), (jsonlLine c filter line).1)

/-- One turn of the loop of append mode: what is printed to the database, and the number of
the next call of `time`. -/
def storeLine (c : CJson) (z : Zlib) (ttl : Int) (clock : Nat → Nat) (calls : Nat)
    (line : Bytes) : Option Nat × Bytes :=
  match clipRecord c line with
  | none => (some calls, [])
  | some (key, value) => match rowLine z ⟨key, value, expireAt ttl (clock calls)⟩ with
    | some text => (some (calls + 1), text)
    | none => (none, [])

abbrev clipStoreProgram (c : CJson) (z : Zlib) (ttl : Int) (clock : Nat → Nat) : Program UInt8 :=
  lineProgram lf (storeLine c z ttl clock)

/-- stream_merge reads nothing from its standard input. -/
def streamMergeProgram : Program UInt8 := ⟨Unit, fun _ _ => (none, []), fun _ => []⟩

/-- The capacities of the two pipes, and what log_parse and clip_store may have in their
output buffers when they read on. -/
structure Sizes where
  pipe1 : Nat
  pipe2 : Nat
  parseBuffer : Nat
  storeBuffer : Nat

/-- The applets when they start; `printed` is all that stream_merge will print. -/
def pipelineStages (c : CJson) (z : Zlib) (filter : Option LogFilter) (ttl : Int)
    (clock : Nat → Nat) (printed : Bytes) (sizes : Sizes) : List (Stage UInt8) :=
  [{ program := clipStoreProgram c z ttl clock
     phase := .reading (1, [])
     capacity := sizes.pipe2
     buffer := sizes.storeBuffer
     input := []
     pending := [] },
   { program := logParseProgram c filter
     phase := .reading ((), [])
     capacity := sizes.pipe1
     buffer := sizes.parseBuffer
     input := []
     pending := [] },
   { program := streamMergeProgram
     phase := .closing
     capacity := 1
     buffer := 0
     input := []
     pending := printed }]

theorem linesOut_jsonlLine (c : CJson) (filter : Option LogFilter) (lines : List Bytes) :
    linesOut (fun (_ : Unit) line => (some (), (jsonlLine c filter line).1)) () lines =
      lines.flatMap fun line => (jsonlLine c filter line).1 := by
  induction lines with
  | nil => rfl
  | cons line rest ih => rw [linesOut_cons, Option.elim_some, ih, List.flatMap_cons]

theorem appendLoop_eq_linesOut (c : CJson) (z : Zlib) (ttl : Int) (clock : Nat → Nat)
    (lines : List Bytes) (calls : Nat) (file : Bytes) :
    (appendLoop c z ttl clock lines calls file).1 =
      file ++ linesOut (storeLine c z ttl clock) calls lines := by
  induction lines generalizing calls file with
  | nil => simp [appendLoop, linesOut]
  | cons line rest ih =>
      rw [appendLoop, linesOut_cons, storeLine]
      cases clipRecord c line with
      | none => simp [ih]
      | some pair =>
          obtain ⟨key, value⟩ := pair
          have append := appendDbRow_line z file ⟨key, value, expireAt ttl (clock calls)⟩
          dsimp only at append ⊢
          rw [append]
          cases rowLine z ⟨key, value, expireAt ttl (clock calls)⟩ with
          | none => simp
          | some text => simp [ih]

theorem remaining_pipelineStages (c : CJson) (z : Zlib) (filter : Option LogFilter) (ttl : Int)
    (clock : Nat → Nat) (printed : Bytes) (sizes : Sizes) :
    remaining (pipelineStages c z filter ttl clock printed sizes) =
      linesOut (storeLine c z ttl clock) 1 (pieces lf (jsonlMode c filter printed).1) := by
  have parsed : (logParseProgram c filter).resume ((), []) printed =
      (jsonlMode c filter printed).1 := by
    rw [lineProgram_resume _ _ _ List.not_mem_nil, linesOut_jsonlLine, List.nil_append, jsonlMode,
      List.flatMap_map]
  rw [← parsed]
  exact lineProgram_resume lf (storeLine c z ttl clock) 1 List.not_mem_nil _

/-- When no process can take a step, all three are gone, and the database file is the one that
the applets make of each other's whole output. -/
theorem stuck_file (c : CJson) (z : Zlib) (filter : Option LogFilter)
    {args : Invocation} {ttl : Int} (ttlGiven : parseTtl args.ttlArg = some ttl)
    (file printed : Bytes) {sizes : Sizes} (room : 0 < sizes.pipe1 ∧ 0 < sizes.pipe2)
    {schedule : List (Nat × Action)} {sys : List (Stage UInt8) × Bytes}
    (ran : Schedule.run step
      (pipelineStages c z filter ttl args.clock printed sizes, file) schedule = some sys)
    (stuck : ∀ move, step sys move = none) :
    (∀ st ∈ sys.1, st.phase = .exited) ∧
      sys.2 = (clipStoreMain c z file
        { args with mode := .append (jsonlMode c filter printed).1 }).1 := by
  have rooms : ∀ st ∈ pipelineStages c z filter ttl args.clock printed sizes,
      0 < st.capacity := by
    simp [pipelineStages, room.1, room.2]
  obtain ⟨exited, output⟩ := stuck_complete rooms ran stuck
  refine ⟨exited, ?_⟩
  rw [output, remaining_pipelineStages]
  simp only [clipStoreMain, ttlGiven]
  exact (appendLoop_eq_linesOut c z ttl args.clock _ 1 file).symm

/-- Whatever the order in which the three processes take their steps, there are no more of them
than a number that is known beforehand, they can be continued to an end, and at that end no
process is left waiting and the database file is the one that the applets make of each other's
whole output. -/
theorem pipeline_schedule_free (c : CJson) (z : Zlib) (filter : Option LogFilter)
    {args : Invocation} {ttl : Int} (ttlGiven : parseTtl args.ttlArg = some ttl)
    (file printed : Bytes) {sizes : Sizes} (room : 0 < sizes.pipe1 ∧ 0 < sizes.pipe2)
    {schedule : List (Nat × Action)} {sys : List (Stage UInt8) × Bytes}
    (ran : Schedule.run step
      (pipelineStages c z filter ttl args.clock printed sizes, file) schedule = some sys) :
    schedule.length ≤ measure (pipelineStages c z filter ttl args.clock printed sizes) ∧
      (∃ more last, Schedule.run step sys more = some last ∧ ∀ move, step last move = none) ∧
      ((∀ move, step sys move = none) → (∀ st ∈ sys.1, st.phase = .exited) ∧
        sys.2 = (clipStoreMain c z file
          { args with mode := .append (jsonlMode c filter printed).1 }).1) :=
  ⟨(Nat.le_add_right _ _).trans (length_run_le ran), exists_stuck sys,
    stuck_file c z filter ttlGiven file printed room ran⟩

/-- One line through pipes of eight bytes. -/
def narrow : Sizes := ⟨8, 8, 0, 0⟩

def appendTo (db : String) : Invocation := ⟨ascii db, ascii "0", .append [], fun _ => 1⟩

/-- Reads and writes of at most eight bytes, in turn. -/
def firstSteps : List (Nat × Action) :=
  [(2, .write 7), (1, .read 7), (2, .write 7), (1, .read 3), (2, .write 3)]

theorem pipeline_schedule_free_first_steps :
    ∃ sys, Schedule.run step (pipelineStages (.ofDialect Json.exactDialect) storedZlib none 0
        (appendTo "db").clock (ascii "\x7b\"session_id\":\"a\"\x7d\n") narrow, []) firstSteps =
          some sys ∧
      ∃ more last, Schedule.run step sys more = some last ∧ ∀ move, step last move = none := by
  have runs : (Schedule.run step (pipelineStages (.ofDialect Json.exactDialect) storedZlib none 0
      (appendTo "db").clock (ascii "\x7b\"session_id\":\"a\"\x7d\n") narrow, [])
      firstSteps).isSome = true := by decide +kernel
  obtain ⟨sys, ran⟩ := Option.isSome_iff_exists.mp runs
  exact ⟨sys, ran, (pipeline_schedule_free (.ofDialect Json.exactDialect) storedZlib none
    (show parseTtl (appendTo "db").ttlArg = some 0 by decide) [] _ (by decide) ran).2.1⟩

end StreamDataPipeline.Pipeline.ProcessChain
