/- Who frees the memory of regex mode (log_regex.c, log_output_format.c, log_parse.c). -/

import Mathlib.Tactic.Abel
import StreamDataPipeline.Foundations.OwnedBlocks
import StreamDataPipeline.LogParse.Aggregates
import StreamDataPipeline.LogParse.CsvOutput
import StreamDataPipeline.LogParse.SplitFields

/-!
The names are pointers into the command line; the captured values are blocks of their own. A
value of the JSON library, the compiled expression and the FILE of the full log count as one block
each. The file system is requested, too.
-/

set_option autoImplicit false
set_option relaxedAutoImplicit false

namespace StreamDataPipeline.LogParse.Ownership

open Foundations Foundations.ByteString Foundations.OwnedBlocks Foundations.StrTok
open FilterExpr JsonlMode RegexMode Aggregates CsvOutput
open SplitFields (comma isComma)

/-- A value with the block that holds it, or NULL. -/
abbrev Slot := Option (Nat × Bytes)

/-- The arrays of `log_t` with what the array of values holds. -/
structure OwnedLog where
  names : Pointer
  values : Pointer
  slots : List Slot

def slotBlocks : List Slot → Multiset Nat := held fun slot => {slot.1}

def OwnedLog.blocks (log : OwnedLog) : Multiset Nat :=
  OwnedBlocks.blocks log.names + OwnedBlocks.blocks log.values + slotBlocks log.slots

/-- The loop of `log_regex_free_values`. -/
def freeSlots (values : Pointer) : List Slot → HeapM Unit
  | [] => pure ()
  | slot :: rest => do
      touch values
      free (slot.map Prod.fst)
      freeSlots values rest

def logRegexFreeValues (log : OwnedLog) : HeapM OwnedLog := do
  freeSlots log.values log.slots
  pure { log with slots := List.replicate log.slots.length none }

def logRegexFree (log : OwnedLog) : HeapM Unit := do
  let log ← logRegexFreeValues log
  free log.names
  free log.values

/-- The arrays for a number of pieces, of which `fields` are not empty; the log, and whether
the return value is 0. -/
def logRegexSplitFields (pieces fields : Nat) : HeapM (OwnedLog × Bool) := do
  let names ← malloc
  let values ← malloc
  if names = none ∨ values = none then
    free names
    free values
    pure (⟨none, none, []⟩, false)
  else pure (⟨names, values, List.replicate fields none⟩, fields = pieces)

/-- The loop over the groups from field `i` on; `todo` fields are left. -/
def captureValues (spans : Nat → Option (Nat × Nat)) (line : Bytes) (found : Pointer) :
    Nat → Nat → OwnedLog → HeapM (Int × OwnedLog)
  | 0, _, log => do
      free found
      pure (0, log)
  | todo + 1, i, log => do
      touch found
      match capturedValue line (spans (i + 1)) with
      | none => do
          let log ← logRegexFreeValues log
          free found
          pure (1, log)
      | some value => do
          touch log.values
          match ← malloc with
          | none => do
              let log ← logRegexFreeValues log
              free found
              pure (-1, log)
          | some b =>
              captureValues spans line found todo (i + 1)
                { log with slots := log.slots.set i (some (b, value)) }

def logRegexParseLine (regexec : Regexec) (line : Bytes) (log : OwnedLog) :
    HeapM (Int × OwnedLog) := do
  match ← malloc with
  | none => pure (-1, log)
  | some found => match regexec line with
    | none => do
        free (some found)
        pure (1, log)
    | some spans => captureValues spans line (some found) log.slots.length 0 log

/-- A step that appends to a dynamic buffer: the pointer, and whether it succeeded. -/
abbrev Append := Pointer → HeapM (Pointer × Bool)

def append : Append := makeRoom

def jsonlWriteString : Append := fun data => do
  match ← malloc with
  | none => pure (data, false)
  | some string => do
      let printed ← malloc
      free (some string)
      match printed with
      | none => pure (data, false)
      | some text => do
          let result ← append data
          free (some text)
          pure result

/-- The first append that fails is the last one. -/
def appends : List Append → Append
  | [], data => pure (data, true)
  | step :: rest, data => do
      let result ← step data
      if result.2 then appends rest result.1 else pure result

/-- A record is put together in a buffer of its own, and printed from it. What is returned tells
whether it was put together, and whether it was printed. -/
def writeRecord (steps : List Append) : HeapM (Bool × Bool) := do
  let result ← appends steps none
  if result.2 then
    touch result.1
    let printed ← ask
    free result.1
    pure (true, printed)
  else
    free result.1
    pure (false, false)

/-- An access to the blocks behind some pointers, and the step that follows it. -/
def reading (pointers : List Pointer) (step : Append) : Append := fun data => do
  pointers.forM touch
  step data

/-- The steps for a field of the JSON text; `first` stands for `i == 0`. -/
def jsonSteps (log : OwnedLog) (first : Bool) (slot : Slot) : List Append :=
  (if first then [] else [append]) ++
    [reading [log.names] jsonlWriteString, append,
      reading [log.values, slot.map Prod.fst] jsonlWriteString]

/-- A field that is quoted is appended character by character. -/
def csvAppends (value : Bytes) : Nat :=
  if value.all rfc4180.bare then 1 else (appendCsvField [] value).length

def csvSteps (log : OwnedLog) (first : Bool) (slot : Slot) : List Append :=
  (if first then [] else [append]) ++
    List.replicate (csvAppends ((slot.map Prod.snd).getD []))
      (reading [log.values, slot.map Prod.fst] append)

/-- The steps for all fields. -/
def fieldSteps (steps : Bool → Slot → List Append) : List Slot → List Append
  | [] => []
  | slot :: rest => steps true slot ++ rest.flatMap (steps false)

/-- False is the return value -1. -/
def logOutputWriteJson (log : OwnedLog) : HeapM Bool := do
  let written ← writeRecord (append :: fieldSteps (jsonSteps log) log.slots ++ [append])
  pure (written.1 && written.2)

/-- Here nobody asks whether the record was printed. -/
def logOutputEmitCsv (log : OwnedLog) : HeapM Bool := do
  let written ← writeRecord (fieldSteps (csvSteps log) log.slots ++ [append])
  pure written.1

/-- What becomes of a record that the filter lets through. `agg_field_idx` is `none` for -1. -/
inductive Emit
  | json | csv | count
  | aggregate (field : Option Nat)
  deriving DecidableEq

/-- The access to a value that was looked up. -/
def readValue (log : OwnedLog) : Option Slot → HeapM Unit
  | none => pure ()
  | some slot => do
      touch log.values
      touch (slot.map Prod.fst)

/-- False ends the loop over the lines. -/
def emitRecord (log : OwnedLog) : Emit → HeapM Bool
  | .json => logOutputWriteJson log
  | .csv => logOutputEmitCsv log
  | .count => pure true
  | .aggregate field => do
      readValue log (field.bind (log.slots[·]?))
      pure true

/-- The values of the record, with the names of the fields. -/
def fieldsOf (names : List Bytes) (log : OwnedLog) : Log :=
  names.zip (log.slots.map fun slot => (slot.map Prod.snd).getD [])

/-- Of the values the filter reads the one that `log_get` finds. -/
def logFilterMatchFields (names : List Bytes) (filter : Option LogFilter) (log : OwnedLog) :
    HeapM Bool := do
  match filter with
  | none => pure ()
  | some filter => do
      touch log.names
      readValue log (((names.zip log.slots).find? fun field => field.1 = filter.key).map Prod.snd)
  pure (RegexMode.logFilterMatchFields (fieldsOf names log) filter)

/-- `getline`: its buffer, and whether a line can be read into it. -/
def getline (buffer : Pointer) : HeapM (Pointer × Bool) := makeRoom buffer

section Lines

variable (regexec : Regexec) (names : List Bytes) (filter : Option LogFilter) (emit : Emit)
  (file : Pointer)

/-- The exit code where the loop ends here, the records that were printed, counted or added up,
and the log. -/
structure Turned where
  code : Option Nat
  records : List Log
  log : OwnedLog

/-- With a full log every record is written there first. -/
def writeFullLog (log : OwnedLog) : HeapM Bool := do
  if file.isSome then
    touch file
    logOutputWriteJson log
  else pure true

/-- What is done with a captured record. -/
def handleRecord (log : OwnedLog) : HeapM Turned := do
  let logged ← writeFullLog file log
  if logged then
    if ← logFilterMatchFields names filter log then
      let emitted ← emitRecord log emit
      let cleared ← logRegexFreeValues log
      pure (if emitted then ⟨none, [fieldsOf names log], cleared⟩ else ⟨some 2, [], cleared⟩)
    else
      let cleared ← logRegexFreeValues log
      pure ⟨none, [], cleared⟩
  else
    let cleared ← logRegexFreeValues log
    pure ⟨some 2, [], cleared⟩

/-- One turn of the loop over the lines. -/
def lineTurn (line : Bytes) (log : OwnedLog) : HeapM Turned := do
  let parsed ← logRegexParseLine regexec line log
  if parsed.1 < 0 then pure ⟨some 2, [], parsed.2⟩
  else if 0 < parsed.1 then pure ⟨none, [], parsed.2⟩
  else handleRecord names filter emit file parsed.2

/-- The loop over the lines, with the buffer of `getline` and what the turns gave so far. A line
that `getline` has no room for ends it like the end of the input. -/
def lineLoop : List Bytes → Pointer → List Log → OwnedLog → HeapM (Pointer × Turned)
  | [], buffer, records, log => do
      let got ← getline buffer
      pure (got.1, ⟨none, records, log⟩)
  | line :: rest, buffer, records, log => do
      let got ← getline buffer
      if got.2 then
        touch got.1
        let turned ← lineTurn regexec names filter emit file (trimLine line) log
        if turned.code.isSome then
          pure (got.1, ⟨turned.code, records ++ turned.records, turned.log⟩)
        else lineLoop rest got.1 (records ++ turned.records) turned.log
      else pure (got.1, ⟨none, records, log⟩)

end Lines

/-- The exit code, the records, and the FILE that nobody has closed. -/
structure Ended where
  code : Nat
  records : List Log
  unclosed : Pointer

/-- The fopen of the full log; false is the return value 1. -/
def openFullLog (fullLog : Bool) : HeapM (Pointer × Bool) := do
  if fullLog then
    let file ← malloc
    pure (file, file.isSome)
  else pure (none, true)

/-- True where there is nothing to close. -/
def closeFullLog (file : Pointer) : HeapM Bool := do
  if file.isSome then
    let closed ← ask
    free file
    pure closed
  else pure true

/-- `none` is an error: the pattern is none, or there is no memory. -/
def regcomp (pattern : Option Regexec) : HeapM (Option (Nat × Regexec)) :=
  match pattern with
  | none => pure none
  | some regexec => do
      match ← malloc with
      | none => pure none
      | some regex => pure (some (regex, regexec))

/-- Regex mode from the loop over the lines on. -/
def regexLoop (regex : Nat) (regexec : Regexec) (names : List Bytes) (filter : Option LogFilter)
    (emit : Emit) (file : Pointer) (lines : List Bytes) (log : OwnedLog) : HeapM Ended := do
  let ended ← lineLoop regexec names filter emit file lines none [] log
  let read ← ask
  free ended.1
  free (some regex)
  logRegexFree ended.2.log
  let closed ← closeFullLog file
  pure ⟨if read && closed then ended.2.code.getD 0 else 2, ended.2.records, none⟩

/-- Regex mode from the split of the fields on. -/
def regexFields (pattern : Option Regexec) (arg : Bytes) (filter : Option LogFilter) (emit : Emit)
    (file : Pointer) (lines : List Bytes) : HeapM Ended := do
  let names := tokens isComma arg
  let split ← logRegexSplitFields (arg.splitOn comma).length names.length
  if split.2 = false ∨ names = [] then
    logRegexFree split.1
    pure ⟨1, [], file⟩
  else
    match ← regcomp pattern with
    | none => do
        logRegexFree split.1
        pure ⟨1, [], file⟩
    | some (regex, regexec) =>
        if emit = .aggregate none then
          logRegexFree split.1
          free (some regex)
          pure ⟨1, [], file⟩
        else regexLoop regex regexec names filter emit file lines split.1

/-- Regex mode of `log_parse_main` behind the options; `fields` is the argument of `--fields`. -/
def regexMain (pattern : Option Regexec) (fields : Option Bytes) (filter : Option LogFilter)
    (emit : Emit) (fullLog : Bool) (lines : List Bytes) : HeapM Ended := do
  let opened ← openFullLog fullLog
  if opened.2 then
    match fields with
    | none => pure ⟨1, [], opened.1⟩
    | some arg => regexFields pattern arg filter emit opened.1 lines
  else pure ⟨1, [], none⟩

@[simp] theorem slotBlocks_nil : slotBlocks [] = 0 := held_nil _

@[simp] theorem slotBlocks_replicate (n : Nat) : slotBlocks (List.replicate n none) = 0 :=
  held_replicate _ n

@[simp] theorem slotBlocks_cons (slot : Slot) (rest : List Slot) :
    slotBlocks (slot :: rest) = OwnedBlocks.blocks (slot.map Prod.fst) + slotBlocks rest := by
  rw [slotBlocks, held_cons]
  cases slot <;> rfl

variable {world : World}

theorem freeSlots_runs {values : Nat} (slots : List Slot) :
    Runs world ({values} + slotBlocks slots) (freeSlots (some values) slots) (fun _ => {values})
      fun _ => True := by
  induction slots with
  | nil => exact .pure (by simp) trivial
  | cons slot rest ih =>
      rw [freeSlots]
      refine (touch_runs (by simp)).bind fun _ _ => ?_
      have split : {values} + slotBlocks (slot :: rest) =
          OwnedBlocks.blocks (slot.map Prod.fst) + ({values} + slotBlocks rest) := by
        rw [slotBlocks_cons, add_left_comm]
      refine (free_runs (slot.map Prod.fst)).then split fun _ _ => ?_
      rw [zero_add]
      exact ih

/-- The log with no value in its slots. -/
def OwnedLog.cleared (log : OwnedLog) : OwnedLog :=
  { log with slots := List.replicate log.slots.length none }

/-- Where there are slots, both arrays are there. -/
def OwnedLog.Sound (log : OwnedLog) : Prop :=
  log.slots ≠ [] → log.names.isSome ∧ log.values.isSome

theorem OwnedLog.cleared_blocks (log : OwnedLog) :
    log.cleared.blocks = OwnedBlocks.blocks log.names + OwnedBlocks.blocks log.values := by
  simp [OwnedLog.cleared, OwnedLog.blocks]

theorem OwnedLog.Sound.cleared {log : OwnedLog} (sound : log.Sound) : log.cleared.Sound := by
  intro some
  exact sound (by simpa [OwnedLog.cleared, ← List.length_eq_zero_iff] using some)

theorem logRegexFreeValues_runs {log : OwnedLog} (sound : log.Sound) :
    Runs world log.blocks (logRegexFreeValues log) OwnedLog.blocks (· = log.cleared) := by
  obtain ⟨names, values, slots⟩ := log
  cases slots with
  | nil =>
      have nothing : Runs world (OwnedLog.blocks ⟨names, values, []⟩) (pure ())
          (fun _ => OwnedLog.blocks ⟨names, values, []⟩) fun _ => True := .pure rfl trivial
      exact nothing.bind fun _ _ => .pure rfl rfl
  | cons slot rest =>
      obtain ⟨values, rfl⟩ := Option.isSome_iff_exists.mp (sound (List.cons_ne_nil slot rest)).2
      have split : OwnedLog.blocks ⟨names, some values, slot :: rest⟩ =
          {values} + slotBlocks (slot :: rest) + OwnedBlocks.blocks names := by
        rw [OwnedLog.blocks, blocks_some]
        abel
      rw [logRegexFreeValues]
      refine (freeSlots_runs (slot :: rest)).then split fun _ _ => ?_
      refine .pure ?_ rfl
      rw [OwnedLog.blocks, slotBlocks_replicate, blocks_some, add_zero, add_comm]

theorem logRegexFree_runs {log : OwnedLog} (sound : log.Sound) :
    Runs world log.blocks (logRegexFree log) (fun _ => 0) fun _ => True := by
  rw [logRegexFree]
  refine (logRegexFreeValues_runs sound).bind fun cleared eq => ?_
  rw [eq, OwnedLog.cleared_blocks]
  refine (free_runs _).then rfl fun _ _ => ?_
  rw [zero_add]
  exact free_runs _

/-- The log while a line is read: the values captured so far, and empty slots for `todo` more. -/
def capturing (names values : Nat) (filled : List (Nat × Bytes)) (todo : Nat) : OwnedLog :=
  ⟨some names, some values, filled.map some ++ List.replicate todo none⟩

theorem capturing_sound (names values : Nat) (filled : List (Nat × Bytes)) (todo : Nat) :
    (capturing names values filled todo).Sound := fun _ => ⟨rfl, rfl⟩

theorem capturing_cleared (names values : Nat) (filled : List (Nat × Bytes)) (todo : Nat) :
    (capturing names values filled todo).cleared =
      capturing names values [] (filled.length + todo) := by
  simp [capturing, OwnedLog.cleared]

theorem capturing_store (names values : Nat) (filled : List (Nat × Bytes)) (todo b : Nat)
    (value : Bytes) :
    { capturing names values filled (todo + 1) with
        slots := (capturing names values filled (todo + 1)).slots.set filled.length
          (some (b, value)) } = capturing names values (filled ++ [(b, value)]) todo := by
  simp [capturing, List.replicate_succ]

theorem capturing_store_blocks (names values : Nat) (filled : List (Nat × Bytes)) (todo b : Nat)
    (value : Bytes) :
    (capturing names values (filled ++ [(b, value)]) todo).blocks =
      {b} + (capturing names values filled (todo + 1)).blocks := by
  have empty : (capturing names values filled (todo + 1)).slots[filled.length]? = some none := by
    simp [capturing]
  rw [← capturing_store]
  simp only [OwnedLog.blocks, slotBlocks, held_set_empty _ empty]
  abel

/-- What reading a line comes to: a return value that is not 0 leaves no value behind, and with
1 the line does not match; with 0 there is a block for every captured value. -/
def Parsed (world : World) (captured : Option Log) (fields : List Bytes)
    (names values : Nat) (filled : List (Nat × Bytes)) (result : Int × OwnedLog) : Prop :=
  (result.1 = 1 ∧ captured = none ∨ result.1 = -1 ∧ Refused world) ∧
      result.2 = capturing names values [] (filled.length + fields.length) ∨
    ∃ more : List (Nat × Bytes), result = (0, capturing names values (filled ++ more) 0) ∧
      more.length = fields.length ∧ captured = some (fields.zip (more.map Prod.snd))

section Specs

theorem giveUp_runs {names values found : Nat} {filled : List (Nat × Bytes)} {todo : Nat}
    (rc : Int) :
    Runs world ({found} + (capturing names values filled todo).blocks)
      (do
        let log ← logRegexFreeValues (capturing names values filled todo)
        free (some found)
        pure (rc, log))
      (fun result => result.2.blocks)
      (· = (rc, capturing names values [] (filled.length + todo))) := by
  refine (logRegexFreeValues_runs (capturing_sound names values filled todo)).then
    (add_comm _ _) fun log eq => ?_
  refine (free_runs (some found)).then (add_comm _ _) fun _ _ => ?_
  rw [zero_add]
  exact .pure rfl (by rw [eq, capturing_cleared])

theorem captureValues_runs (spans : Nat → Option (Nat × Nat)) (line : Bytes)
    {names values found : Nat} (fields : List Bytes) (filled : List (Nat × Bytes)) :
    Runs world ({found} + (capturing names values filled fields.length).blocks)
      (captureValues spans line (some found) fields.length filled.length
        (capturing names values filled fields.length))
      (fun result => result.2.blocks)
      (Parsed world (captureFields spans line (filled.length + 1) fields) fields names values
        filled) := by
  induction fields generalizing filled with
  | nil =>
      refine (free_runs (some found)).then rfl fun _ _ => ?_
      rw [zero_add]
      exact .pure rfl (.inr ⟨[], by simp, rfl, by simp [captureFields]⟩)
  | cons field fields ih =>
      rw [List.length_cons, captureValues, captureFields]
      refine (touch_runs (by simp)).bind fun _ _ => ?_
      cases capturedValue line (spans (filled.length + 1)) with
      | none =>
          refine (giveUp_runs 1).weaken rfl fun result eq => ⟨rfl, .inl ?_⟩
          exact eq ▸ ⟨.inl ⟨rfl, rfl⟩, rfl⟩
      | some value =>
          have owned : values ∈ {found} + (capturing names values filled
              (fields.length + 1)).blocks := by
            simp [OwnedLog.blocks, capturing]
          refine (touch_runs owned).bind fun _ _ => ?_
          refine malloc_runs.then (zero_add _).symm fun block no => ?_
          cases block with
          | none =>
              rw [blocks_none, zero_add]
              refine (giveUp_runs (-1)).weaken rfl fun result eq => ⟨rfl, .inl ?_⟩
              exact eq ▸ ⟨.inr ⟨rfl, no rfl⟩, rfl⟩
          | some b =>
              have later := ih (filled ++ [(b, value)])
              rw [List.length_append, List.length_singleton] at later
              dsimp only
              rw [capturing_store]
              refine later.weaken ?_ ?_
              · rw [capturing_store_blocks, blocks_some]
                exact add_left_comm _ _ _
              · intro result parsed
                refine ⟨rfl, parsed.imp ?_ ?_⟩
                · rintro ⟨why, left⟩
                  refine ⟨why.imp_left fun unset => ⟨unset.1, by rw [unset.2]; rfl⟩, ?_⟩
                  rw [left, List.length_append, List.length_singleton, List.length_cons,
                    add_assoc, add_comm 1]
                · rintro ⟨more, rfl, length, captured⟩
                  refine ⟨(b, value) :: more, by simp, by simp [length], ?_⟩
                  rw [captured]
                  rfl

theorem logRegexParseLine_runs (regexec : Regexec) (line : Bytes) {names values : Nat}
    (fields : List Bytes) :
    Runs world (capturing names values [] fields.length).blocks
      (logRegexParseLine regexec line (capturing names values [] fields.length))
      (fun result => result.2.blocks)
      (Parsed world (RegexMode.logRegexParseLine regexec fields line) fields names values
        []) := by
  rw [logRegexParseLine, RegexMode.logRegexParseLine]
  refine malloc_runs.then (zero_add _).symm fun found no => ?_
  cases found with
  | none =>
      rw [blocks_none, zero_add]
      exact .pure rfl (.inl ⟨.inr ⟨rfl, no rfl⟩, by simp⟩)
  | some found =>
      rw [blocks_some]
      cases regexec line with
      | none =>
          refine (free_runs (some found)).then rfl fun _ _ => ?_
          rw [zero_add]
          exact .pure rfl (.inl ⟨.inl ⟨rfl, rfl⟩, by simp⟩)
      | some spans =>
          have slots : (capturing names values [] fields.length).slots.length = fields.length := by
            simp [capturing]
          dsimp only
          rw [slots]
          exact captureValues_runs spans line fields []

/-- A step that leaves all blocks but that of its buffer alone; where it succeeds there is a
buffer. -/
def Appends (world : World) (own : Multiset Nat) (step : Append) : Prop :=
  ∀ data, Runs world (blocks data + own) (step data) (fun result => blocks result.1 + own)
    fun result => (result.2 = true → result.1.isSome) ∧ (result.2 = false → Refused world)

theorem append_appends (own : Multiset Nat) : Appends world own append :=
  fun data => (makeRoom_runs data).frame own

theorem reading_appends {own : Multiset Nat} {pointers : List Pointer} {step : Append}
    (owned : ∀ p ∈ pointers, ∃ b ∈ own, p = some b) (appends : Appends world own step) :
    Appends world own (reading pointers step) := by
  intro data
  refine (touches_runs fun p mem => ?_).bind fun _ _ => appends data
  obtain ⟨b, there, eq⟩ := owned p mem
  exact ⟨b, Multiset.mem_add.mpr (.inr there), eq⟩

theorem jsonlWriteString_appends (own : Multiset Nat) :
    Appends world own jsonlWriteString := by
  intro data
  refine malloc_runs.then (zero_add _).symm fun string no => ?_
  cases string with
  | none => exact .pure (zero_add _) ⟨nofun, fun _ => no rfl⟩
  | some string =>
      refine malloc_runs.then (zero_add _).symm fun printed refused => ?_
      refine (free_runs (some string)).then (add_left_comm _ _ _) fun _ _ => ?_
      rw [zero_add]
      cases printed with
      | none => exact .pure (zero_add _) ⟨nofun, fun _ => refused rfl⟩
      | some text =>
          refine (append_appends own data).then (add_comm _ _) fun result done => ?_
          refine (free_runs (some text)).then (add_comm _ _) fun _ _ => ?_
          rw [zero_add]
          exact .pure rfl done

theorem appends_runs {own : Multiset Nat} {steps : List Append}
    (all : ∀ step ∈ steps, Appends world own step) (some : steps ≠ []) :
    Appends world own (appends steps) := by
  induction steps with
  | nil => exact absurd rfl some
  | cons step rest ih =>
      intro data
      refine (all step List.mem_cons_self data).bind fun result done => ?_
      refine .ite (fun went => ?_) fun _ => .pure rfl done
      cases rest with
      | nil => exact .pure rfl ⟨fun _ => done.1 went, nofun⟩
      | cons next rest =>
          exact ih (fun s mem => all s (List.mem_cons_of_mem _ mem)) (List.cons_ne_nil _ _) result.1

theorem writeRecord_runs {own : Multiset Nat} {steps : List Append}
    (all : ∀ step ∈ steps, Appends world own step) (some : steps ≠ []) :
    Runs world own (writeRecord steps) (fun _ => own)
      fun written => written.1 = false ∨ written.2 = false → Refused world := by
  refine (appends_runs all some none).weaken (zero_add own).symm
    (fun _ post => ⟨rfl, post⟩) |>.bind fun result done => ?_
  refine .ite (fun went => ?_) fun failed => ?_
  · obtain ⟨b, eq⟩ := Option.isSome_iff_exists.mp (done.1 went)
    rw [eq]
    refine (touch_runs (by simp)).bind fun _ _ => ?_
    refine ask_runs.then (zero_add _).symm fun printed no => ?_
    rw [zero_add]
    refine (free_runs _).then rfl fun _ _ => ?_
    rw [zero_add]
    exact .pure rfl (by simpa using no)
  · refine (free_runs result.1).then rfl fun _ _ => ?_
    rw [zero_add]
    exact .pure rfl fun _ => done.2 (Bool.not_eq_true _ ▸ failed)

theorem mem_fieldSteps {steps : Bool → Slot → List Append} {slots : List Slot} {step : Append}
    (mem : step ∈ fieldSteps steps slots) : ∃ slot ∈ slots, ∃ first, step ∈ steps first slot := by
  cases slots with
  | nil => cases mem
  | cons slot rest =>
      rcases List.mem_append.mp mem with here | later
      · exact ⟨slot, List.mem_cons_self, true, here⟩
      · obtain ⟨other, there, inner⟩ := List.mem_flatMap.mp later
        exact ⟨other, List.mem_cons_of_mem _ there, false, inner⟩

variable (names values : Nat) (filled : List (Nat × Bytes))

theorem names_owned :
    ∃ b ∈ (capturing names values filled 0).blocks, some names = some b :=
  ⟨names, by simp [OwnedLog.blocks, capturing], rfl⟩

theorem values_owned :
    ∃ b ∈ (capturing names values filled 0).blocks, some values = some b :=
  ⟨values, by simp [OwnedLog.blocks, capturing], rfl⟩

theorem slot_owned {slot : Slot} (there : slot ∈ filled.map some) :
    ∃ b ∈ (capturing names values filled 0).blocks, slot.map Prod.fst = some b := by
  obtain ⟨field, inner, rfl⟩ := List.mem_map.mp there
  have stored : some field ∈ (capturing names values filled 0).slots := by
    simpa [capturing] using inner
  have owned := mem_held (fun slot => {slot.1}) stored (Multiset.mem_singleton_self field.1)
  exact ⟨field.1, Multiset.mem_add.mpr (.inr owned), rfl⟩

theorem value_appends {slot : Slot} (there : slot ∈ filled.map some) {step : Append}
    (appends : Appends world (capturing names values filled 0).blocks step) :
    Appends world (capturing names values filled 0).blocks
      (reading [some values, slot.map Prod.fst] step) := by
  refine reading_appends (fun p mem => ?_) appends
  rcases List.mem_pair.mp mem with rfl | rfl
  · exact values_owned names values filled
  · exact slot_owned names values filled there

theorem jsonSteps_appends {slot : Slot} (there : slot ∈ filled.map some) (first : Bool) :
    ∀ step ∈ jsonSteps (capturing names values filled 0) first slot,
      Appends world (capturing names values filled 0).blocks step := by
  have name : Appends world (capturing names values filled 0).blocks
      (reading [some names] jsonlWriteString) := by
    refine reading_appends (fun p mem => ?_) (jsonlWriteString_appends _)
    exact List.mem_singleton.mp mem ▸ names_owned names values filled
  have value := value_appends names values filled there
    (@jsonlWriteString_appends world (capturing names values filled 0).blocks)
  have plain := @append_appends world (capturing names values filled 0).blocks
  intro step mem
  cases first <;> simp only [jsonSteps, if_true, Bool.false_eq_true, if_false, List.mem_append,
    List.mem_cons, List.not_mem_nil, or_false, false_or] at mem
  · rcases mem with rfl | rfl | rfl | rfl
    · exact plain
    · exact name
    · exact plain
    · exact value
  · rcases mem with rfl | rfl | rfl
    · exact name
    · exact plain
    · exact value

theorem csvSteps_appends {slot : Slot} (there : slot ∈ filled.map some) (first : Bool) :
    ∀ step ∈ csvSteps (capturing names values filled 0) first slot,
      Appends world (capturing names values filled 0).blocks step := by
  have plain := @append_appends world (capturing names values filled 0).blocks
  have value := value_appends names values filled there plain
  intro step mem
  rcases List.mem_append.mp mem with separator | character
  · split_ifs at separator
    · cases separator
    · exact List.mem_singleton.mp separator ▸ plain
  · exact List.eq_of_mem_replicate character ▸ value

theorem capturing_slots :
    (capturing names values filled 0).slots = filled.map some := by
  simp [capturing]

theorem logOutputWriteJson_runs :
    Runs world (capturing names values filled 0).blocks
      (logOutputWriteJson (capturing names values filled 0))
      (fun _ => (capturing names values filled 0).blocks)
      fun written => written = false → Refused world := by
  refine (writeRecord_runs (fun step mem => ?_) (by simp)).bind fun written no => ?_
  · rcases List.mem_append.mp mem with inner | last
    · rcases List.mem_cons.mp inner with rfl | field
      · exact append_appends _
      · obtain ⟨slot, there, first, step⟩ := mem_fieldSteps field
        rw [capturing_slots] at there
        exact jsonSteps_appends names values filled there first _ step
    · rw [List.mem_singleton.mp last]
      exact append_appends _
  · exact .pure rfl fun failed => no (Bool.and_eq_false_iff.mp failed)

theorem logOutputEmitCsv_runs :
    Runs world (capturing names values filled 0).blocks
      (logOutputEmitCsv (capturing names values filled 0))
      (fun _ => (capturing names values filled 0).blocks)
      fun emitted => emitted = false → Refused world := by
  refine (writeRecord_runs (fun step mem => ?_) (by simp)).bind fun written no => ?_
  · rcases List.mem_append.mp mem with field | last
    · obtain ⟨slot, there, first, step⟩ := mem_fieldSteps field
      rw [capturing_slots] at there
      exact csvSteps_appends names values filled there first _ step
    · rw [List.mem_singleton.mp last]
      exact append_appends _
  · exact .pure rfl fun failed => no (.inl failed)

theorem readValue_runs {found : Option Slot}
    (there : ∀ slot, found = some slot → slot ∈ (capturing names values filled 0).slots) :
    Runs world (capturing names values filled 0).blocks
      (readValue (capturing names values filled 0) found)
      (fun _ => (capturing names values filled 0).blocks) fun _ => True := by
  cases found with
  | none => exact .pure rfl trivial
  | some slot =>
      obtain ⟨array, mem, here⟩ := values_owned names values filled
      obtain ⟨value, owned, same⟩ :=
        slot_owned names values filled (capturing_slots names values filled ▸ there slot rfl)
      rw [readValue, same]
      exact (touch_runs (Option.some.inj here ▸ mem)).bind fun _ _ => touch_runs owned

theorem emitRecord_runs (emit : Emit) :
    Runs world (capturing names values filled 0).blocks
      (emitRecord (capturing names values filled 0) emit)
      (fun _ => (capturing names values filled 0).blocks)
      fun emitted => emitted = false → Refused world := by
  cases emit with
  | json => exact logOutputWriteJson_runs names values filled
  | csv => exact logOutputEmitCsv_runs names values filled
  | count => exact .pure rfl nofun
  | aggregate field =>
      refine (readValue_runs names values filled fun slot found => ?_).bind fun _ _ =>
        .pure rfl nofun
      obtain ⟨i, -, there⟩ := Option.bind_eq_some_iff.mp found
      exact List.mem_of_getElem? there

theorem fieldsOf_capturing (fields : List Bytes) :
    fieldsOf fields (capturing names values filled 0) = fields.zip (filled.map Prod.snd) := by
  simp [fieldsOf, capturing, Function.comp_def]

theorem logFilterMatchFields_runs (fields : List Bytes) (filter : Option LogFilter) :
    Runs world (capturing names values filled 0).blocks
      (logFilterMatchFields fields filter (capturing names values filled 0))
      (fun _ => (capturing names values filled 0).blocks)
      (· = RegexMode.logFilterMatchFields (fields.zip (filled.map Prod.snd)) filter) := by
  rw [← fieldsOf_capturing names values]
  cases filter with
  | none => exact .pure rfl rfl
  | some filter =>
      obtain ⟨array, mem, here⟩ := names_owned names values filled
      refine (touch_runs (Option.some.inj here ▸ mem)).bind fun _ _ => ?_
      refine (readValue_runs names values filled fun slot found => ?_).bind fun _ _ =>
        .pure rfl rfl
      obtain ⟨field, which, rfl⟩ := Option.map_eq_some_iff.mp found
      exact (List.of_mem_zip (List.mem_of_find?_eq_some which)).2

/-- What a turn has to do with the record of its line: it lets it through where the filter does.
A turn that ends the loop was refused something, and lets nothing through. -/
def Handled (world : World) (fields : Nat) (selected : List Log) (turned : Turned) : Prop :=
  turned.log = capturing names values [] fields ∧
    ((turned.code = none ∧ turned.records = selected) ∨
      turned.code = some 2 ∧ turned.records = [] ∧ Refused world)

theorem writeFullLog_runs (file : Pointer) :
    Runs world ((capturing names values filled 0).blocks + blocks file)
      (writeFullLog file (capturing names values filled 0))
      (fun _ => (capturing names values filled 0).blocks + blocks file)
      fun logged => logged = false → Refused world := by
  cases file with
  | none => exact .pure rfl nofun
  | some file =>
      refine (touch_runs (by simp)).bind fun _ _ => ?_
      exact (logOutputWriteJson_runs names values filled).frame _

theorem handleRecord_runs (fields : List Bytes) (filter : Option LogFilter) (emit : Emit)
    (file : Pointer) :
    Runs world ((capturing names values filled 0).blocks + blocks file)
      (handleRecord fields filter emit file (capturing names values filled 0))
      (fun turned => turned.log.blocks + blocks file)
      (Handled names values world filled.length
        ([fields.zip (filled.map Prod.snd)].filter
          (RegexMode.logFilterMatchFields · filter))) := by
  have free := @logRegexFreeValues_runs world _ (capturing_sound names values filled 0)
  have cleared : (capturing names values filled 0).cleared =
      capturing names values [] filled.length := capturing_cleared names values filled 0
  refine (writeFullLog_runs names values filled file).bind fun logged unlogged => ?_
  refine Runs.frame ?_ (blocks file)
  refine .ite (fun _ => ?_) fun no => ?_
  · refine (logFilterMatchFields_runs names values filled fields filter).bind fun chosen eq => ?_
    have selected : [fields.zip (filled.map Prod.snd)].filter
        (RegexMode.logFilterMatchFields · filter) =
          if chosen then [fieldsOf fields (capturing names values filled 0)] else [] := by
      rw [fieldsOf_capturing, eq, List.filter_singleton, Bool.cond_eq_ite]
    rw [selected]
    refine .ite (fun yes => ?_) fun no => ?_
    · rw [if_pos yes]
      refine (emitRecord_runs names values filled emit).bind fun emitted unemitted => ?_
      refine free.bind fun log freed => ?_
      cases emitted with
      | true => exact .pure rfl ⟨freed.trans cleared, .inl ⟨rfl, rfl⟩⟩
      | false => exact .pure rfl ⟨freed.trans cleared, .inr ⟨rfl, rfl, unemitted rfl⟩⟩
    · rw [if_neg no]
      exact free.bind fun log freed => .pure rfl ⟨freed.trans cleared, .inl ⟨rfl, rfl⟩⟩
  · refine free.bind fun log freed => .pure rfl ⟨freed.trans cleared, .inr ⟨rfl, rfl, ?_⟩⟩
    exact unlogged (Bool.not_eq_true _ ▸ no)

/-- The records of a line that the filter lets through. -/
def selectedRecords (regexec : Regexec) (fields : List Bytes) (filter : Option LogFilter)
    (line : Bytes) : List Log :=
  (RegexMode.logRegexParseLine regexec fields (trimLine line)).toList.filter
    (RegexMode.logFilterMatchFields · filter)

variable (regexec : Regexec) (fields : List Bytes) (filter : Option LogFilter) (emit : Emit)
  (file : Pointer)

theorem lineTurn_runs (line : Bytes) :
    Runs world ((capturing names values [] fields.length).blocks + blocks file)
      (lineTurn regexec fields filter emit file (trimLine line)
        (capturing names values [] fields.length))
      (fun turned => turned.log.blocks + blocks file)
      (Handled names values world fields.length (selectedRecords regexec fields filter line)) := by
  refine (logRegexParseLine_runs regexec (trimLine line) fields).then rfl fun parsed what => ?_
  rw [selectedRecords]
  obtain ⟨rc, log⟩ := parsed
  rcases what with ⟨why, rfl⟩ | ⟨more, eq, length, captured⟩
  · rw [List.length_nil, zero_add]
    rcases why with ⟨rfl, none⟩ | ⟨rfl, refused⟩
    · rw [none]
      exact .pure rfl ⟨rfl, .inl ⟨rfl, rfl⟩⟩
    · exact .pure rfl ⟨rfl, .inr ⟨rfl, rfl, refused⟩⟩
  · obtain ⟨rfl, rfl⟩ := Prod.mk.inj eq
    rw [captured, ← length, List.nil_append]
    exact handleRecord_runs names values more fields filter emit file

/-- What the loop over the lines comes to: the records that the turns gave are the first of those
that the lines have, and all of them unless something was refused. -/
def Looped (world : World) (records selected : List Log) (turned : Turned) : Prop :=
  turned.log = capturing names values [] fields.length ∧
    (turned.code = none ∨ turned.code = some 2) ∧
    ∃ taken, turned.records = records ++ taken ∧ taken <+: selected ∧
      (turned.code = none ∧ taken = selected ∨ Refused world)

theorem lineLoop_runs (lines : List Bytes) (buffer : Pointer) (records : List Log) :
    Runs world (blocks buffer + ((capturing names values [] fields.length).blocks + blocks file))
      (lineLoop regexec fields filter emit file lines buffer records
        (capturing names values [] fields.length))
      (fun ended => blocks ended.1 + (ended.2.log.blocks + blocks file))
      fun ended => Looped names values fields world records
        (lines.flatMap (selectedRecords regexec fields filter)) ended.2 := by
  induction lines generalizing buffer records with
  | nil =>
      refine (makeRoom_runs buffer).then rfl fun got _ => .pure rfl ?_
      exact ⟨rfl, .inl rfl, [], by simp, List.prefix_rfl, .inl ⟨rfl, rfl⟩⟩
  | cons line rest ih =>
      refine (makeRoom_runs buffer).then rfl fun got room => ?_
      refine .ite (fun yes => ?_) fun no => ?_
      · obtain ⟨b, eq⟩ := Option.isSome_iff_exists.mp (room.1 yes)
        rw [eq]
        refine (touch_runs (by simp)).bind fun _ _ => ?_
        refine (lineTurn_runs names values regexec fields filter emit file line).then
          (add_comm _ _) fun turned ⟨idle, handled⟩ => ?_
        rw [idle]
        rcases handled with ⟨going, given⟩ | ⟨code, given, refused⟩
        · refine .ite (fun ends => by simp [going] at ends) fun _ => ?_
          refine (ih (some b) (records ++ turned.records)).weaken (add_comm _ _) ?_
          rintro ended ⟨log, ended_code, taken, eq, start, whole⟩
          refine ⟨rfl, log, ended_code, turned.records ++ taken, by rw [eq, List.append_assoc], ?_⟩
          rw [List.flatMap_cons, given]
          exact ⟨(List.prefix_append_right_inj _).mpr start,
            whole.imp_left fun all => ⟨all.1, by rw [all.2]⟩⟩
        · refine .ite (fun _ => ?_) fun goes => by simp [code] at goes
          refine .pure (add_comm _ _) ⟨rfl, .inr code, [], ?_, ?_⟩
          · rw [given]
          · exact ⟨List.nil_prefix, .inr refused⟩
      · refine .pure rfl ⟨rfl, .inl rfl, [], by simp, List.nil_prefix, .inr ?_⟩
        exact room.2 (Bool.not_eq_true _ ▸ no)

theorem logRegexSplitFields_runs (pieces fields : Nat) :
    Runs world 0 (logRegexSplitFields pieces fields) (fun split => split.1.blocks)
      fun split => split.1.Sound ∧
        (split.2 = true → pieces = fields ∧
          ∃ names values, split.1 = capturing names values [] fields) ∧
        (split.2 = false → pieces ≠ fields ∨ Refused world) := by
  refine malloc_runs.bind fun names unnamed => ?_
  refine malloc_runs.then (zero_add _).symm fun values unvalued => ?_
  refine .ite (fun missing => ?_) fun there => ?_
  · refine (free_runs names).then (add_comm _ _) fun _ _ => ?_
    rw [zero_add]
    refine (free_runs values).bind fun _ _ => .pure (by simp [OwnedLog.blocks]) ?_
    exact ⟨fun some => absurd rfl some, nofun, fun _ => .inr (missing.elim unnamed unvalued)⟩
  · obtain ⟨named, valued⟩ := not_or.mp there
    obtain ⟨n, rfl⟩ := Option.ne_none_iff_exists'.mp named
    obtain ⟨v, rfl⟩ := Option.ne_none_iff_exists'.mp valued
    refine .pure ?_ ⟨fun _ => ⟨rfl, rfl⟩, fun same => ?_, fun differ => ?_⟩
    · simp [OwnedLog.blocks, add_comm]
    · exact ⟨(of_decide_eq_true same).symm, n, v, by simp [capturing]⟩
    · exact .inl fun same => of_decide_eq_false differ same.symm

theorem selectedRecords_flatMap (lines : List Bytes) :
    lines.flatMap (selectedRecords regexec fields filter) =
      (lines.filterMap fun line =>
        RegexMode.logRegexParseLine regexec fields (trimLine line)).filter
          (RegexMode.logFilterMatchFields · filter) := by
  induction lines with
  | nil => rfl
  | cons line rest ih =>
      rw [List.flatMap_cons, ih, selectedRecords, List.filterMap_cons]
      cases RegexMode.logRegexParseLine regexec fields (trimLine line) with
      | none => rfl
      | some log => rw [Option.toList_some, ← List.filter_append, List.singleton_append]

/-- The options are as they must be. -/
structure GoodOptions (pattern : Option Regexec) (fields : Option Bytes) (emit : Emit) : Prop where
  compiles : pattern.isSome
  split : ∃ arg, fields = some arg ∧ ∀ piece ∈ arg.splitOn comma, piece ≠ []
  found : emit ≠ .aggregate none

/-- The records that a run should let through. -/
def expectedRecords (pattern : Option Regexec) (fields : Option Bytes) (filter : Option LogFilter)
    (stdin : Bytes) : List Log :=
  match pattern, fields with
  | some regexec, some arg => (capturedRecords regexec (tokens isComma arg) stdin).filter
      (RegexMode.logFilterMatchFields · filter)
  | _, _ => []

/-- What a run comes to. -/
structure Finished (refused : Prop) (good : Prop) (fullLog : Bool) (expected : List Log)
    (ended : Ended) : Prop where
  started : ended.records <+: expected
  whole : good → ended = ⟨0, expected, none⟩ ∨ refused
  rejected : ¬ good → (ended.code = 1 ∧ ended.records = [] ∧
    (ended.unclosed.isSome ↔ fullLog = true)) ∨ refused
  leaks : ended.unclosed.isSome → fullLog = true ∧ ended.code = 1 ∧ ended.records = []

theorem Finished.early {refused good : Prop} {fullLog : Bool} {expected : List Log} {file : Pointer}
    (opened : file.isSome = fullLog) (why : ¬ good ∨ refused) :
    Finished refused good fullLog expected ⟨1, [], file⟩ where
  started := List.nil_prefix
  whole holds := .inr (why.resolve_left fun fails => fails holds)
  rejected _ := .inl ⟨rfl, rfl, by rw [opened]⟩
  leaks left := ⟨opened.symm.trans left, rfl, rfl⟩

theorem openFullLog_runs (fullLog : Bool) :
    Runs world 0 (openFullLog fullLog) (fun opened => blocks opened.1)
      fun opened => (opened.2 = true → opened.1.isSome = fullLog) ∧
        (opened.2 = false → opened.1 = none ∧ Refused world) := by
  cases fullLog with
  | false => exact .pure rfl ⟨fun _ => rfl, nofun⟩
  | true =>
      refine malloc_runs.bind fun file no => .pure rfl ⟨fun opened => opened, fun failed => ?_⟩
      have missing : file = none :=
        Option.isNone_iff_eq_none.mp (Option.isSome_eq_false_iff.mp failed)
      exact ⟨missing, no missing⟩

theorem regcomp_runs (pattern : Option Regexec) :
    Runs world 0 (regcomp pattern) (fun compiled => blocks (compiled.map Prod.fst))
      fun compiled => (∀ regex regexec, compiled = some (regex, regexec) →
          pattern = some regexec) ∧
        (compiled = none → ¬ pattern.isSome ∨ Refused world) := by
  cases pattern with
  | none => exact .pure rfl ⟨nofun, fun _ => .inl nofun⟩
  | some regexec =>
      refine malloc_runs.bind fun regex no => ?_
      cases regex with
      | none => exact .pure rfl ⟨nofun, fun _ => .inr (no rfl)⟩
      | some regex => exact .pure rfl ⟨fun _ _ same => by cases same; rfl, nofun⟩

theorem closeFullLog_runs (file : Pointer) :
    Runs world (blocks file) (closeFullLog file) (fun _ => 0)
      fun closed => closed = false → Refused world := by
  cases file with
  | none => exact .pure rfl nofun
  | some file =>
      refine ask_runs.then (zero_add _).symm fun closed no => ?_
      refine (free_runs (some file)).then (by rw [zero_add, add_zero]) fun _ _ => ?_
      exact .pure rfl no

theorem regexLoop_runs (names values regex : Nat) (regexec : Regexec) (fields : List Bytes)
    (filter : Option LogFilter) (emit : Emit) (file : Pointer) (stdin : Bytes) :
    Runs world ((capturing names values [] fields.length).blocks + ({regex} + blocks file))
      (regexLoop regex regexec fields filter emit file (Lines.pieces lf stdin)
        (capturing names values [] fields.length))
      (fun _ => 0)
      fun ended => ended.unclosed = none ∧
        ended.records <+: (capturedRecords regexec fields stdin).filter
          (RegexMode.logFilterMatchFields · filter) ∧
        (ended = ⟨0, (capturedRecords regexec fields stdin).filter
          (RegexMode.logFilterMatchFields · filter), none⟩ ∨ Refused world) := by
  refine (lineLoop_runs names values regexec fields filter emit file
    (Lines.pieces lf stdin) none []).then
      (by rw [blocks_none, zero_add, add_comm ({regex} : Multiset Nat), ← add_assoc])
      fun ended ⟨log, _, taken, eq, start, all⟩ => ?_
  rw [selectedRecords_flatMap] at start all
  refine ask_runs.then (zero_add _).symm fun read unread => ?_
  rw [zero_add, add_assoc]
  refine (free_runs ended.1).then rfl fun _ _ => ?_
  rw [zero_add]
  refine (free_runs (some regex)).then (add_comm _ _) fun _ _ => ?_
  rw [zero_add]
  have sound : ended.2.log.Sound := log ▸ capturing_sound names values [] _
  refine (logRegexFree_runs sound).then rfl fun _ _ => ?_
  rw [zero_add]
  refine (closeFullLog_runs file).bind fun closed unclosed => .pure rfl ?_
  rw [List.nil_append] at eq
  refine ⟨rfl, eq ▸ start, ?_⟩
  rcases all with ⟨code, rfl⟩ | refused
  · rw [eq, code]
    cases read
    · exact .inr (unread rfl)
    · cases closed
      · exact .inr (unclosed rfl)
      · exact .inl rfl
  · exact .inr refused

/-- A run whose full log is open, if there is to be one. -/
theorem regexFields_runs (pattern : Option Regexec) (arg : Bytes) (filter : Option LogFilter)
    (emit : Emit) {fullLog : Bool} {file : Pointer} (opened : file.isSome = fullLog)
    (stdin : Bytes) :
    Runs world (blocks file) (regexFields pattern arg filter emit file (Lines.pieces lf stdin))
      (fun ended => blocks ended.unclosed)
      (Finished (Refused world) (GoodOptions pattern (some arg) emit) fullLog
        (expectedRecords pattern (some arg) filter stdin)) := by
  have pieces : ∀ good : GoodOptions pattern (some arg) emit,
      (arg.splitOn comma).length = (tokens isComma arg).length := by
    rintro ⟨-, ⟨other, same, nonempty⟩, -⟩
    obtain rfl := Option.some.inj same
    exact ((length_tokens_eq_iff arg).mpr nonempty).symm
  refine (logRegexSplitFields_runs _ _).then (zero_add _).symm
    fun split ⟨sound, whole, broken⟩ => ?_
  refine .ite (fun wrong => ?_) fun right => ?_
  · refine (logRegexFree_runs sound).then rfl fun _ _ => .pure (zero_add _) (.early opened ?_)
    rcases wrong with failed | none
    · exact (broken failed).imp_left fun differ good => differ (pieces good)
    · refine .inl fun good => ?_
      have length := pieces good
      rw [none, List.length_nil, List.length_eq_zero_iff] at length
      exact List.splitOn_ne_nil _ _ length
  obtain ⟨good, -⟩ := not_or.mp right
  obtain ⟨same, names, values, eq⟩ := whole (Bool.not_eq_false _ ▸ good)
  rw [eq] at sound ⊢
  refine (regcomp_runs pattern).then (zero_add _).symm fun compiled ⟨given, refused⟩ => ?_
  rcases compiled with _ | ⟨regex, regexec⟩
  · refine (logRegexFree_runs sound).then (zero_add _) fun _ _ => .pure (zero_add _) ?_
    exact .early opened ((refused rfl).imp_left fun bad good => bad good.compiles)
  obtain rfl := given regex regexec rfl
  refine .ite (fun unknown => ?_) fun known => ?_
  · refine (logRegexFree_runs sound).then (add_left_comm _ _ _) fun _ _ => ?_
    rw [zero_add]
    refine (free_runs (some regex)).then rfl fun _ _ => .pure (zero_add _) ?_
    exact .early opened (.inl fun good => good.found unknown)
  have accepted : GoodOptions (some regexec) (some arg) emit :=
    ⟨rfl, ⟨arg, rfl, (length_tokens_eq_iff arg).mp same.symm⟩, known⟩
  refine (regexLoop_runs names values regex regexec (tokens isComma arg) filter emit file
    stdin).weaken (add_left_comm _ _ _) fun ended ⟨closed, start, all⟩ => ?_
  rw [closed, blocks_none]
  refine ⟨rfl, start, fun _ => all, fun bad => absurd accepted bad, fun left => ?_⟩
  rw [closed] at left
  cases left

theorem regexMain_runs (pattern : Option Regexec) (fields : Option Bytes)
    (filter : Option LogFilter) (emit : Emit) (fullLog : Bool) (stdin : Bytes) :
    Runs world 0 (regexMain pattern fields filter emit fullLog (Lines.pieces lf stdin))
      (fun ended => blocks ended.unclosed)
      (Finished (Refused world) (GoodOptions pattern fields emit) fullLog
        (expectedRecords pattern fields filter stdin)) := by
  refine (openFullLog_runs fullLog).bind fun opened ⟨open_file, refused⟩ => ?_
  refine .ite (fun went => ?_) fun failed => ?_
  · cases fields with
    | none =>
        refine .pure rfl (.early (open_file went) (.inl fun good => ?_))
        obtain ⟨-, ⟨arg, missing, -⟩, -⟩ := good
        cases missing
    | some arg => exact regexFields_runs pattern arg filter emit (open_file went) stdin
  · obtain ⟨missing, no⟩ := refused (Bool.not_eq_true _ ▸ failed)
    rw [missing]
    exact .pure rfl ⟨List.nil_prefix, fun _ => .inr no, fun _ => .inr no, nofun⟩

end Specs

end StreamDataPipeline.LogParse.Ownership
