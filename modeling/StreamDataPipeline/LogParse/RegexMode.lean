/- Regex mode of log_parse (log_regex.c, log_output_format.c, log_parse.c). -/

import StreamDataPipeline.LogParse.JsonlMode

set_option autoImplicit false
set_option relaxedAutoImplicit false

namespace StreamDataPipeline.LogParse.RegexMode

open Foundations.ByteString Foundations.Lines Lib.JsonlCodec FilterExpr JsonlMode

/-- The field names of the command line with the values captured from one line. -/
abbrev Log := List (Bytes × Bytes)

/-- The regular expression library: where each group of a match begins and ends. -/
abbrev Regexec := Bytes → Option (Nat → Option (Nat × Nat))

/-- One captured value; `none` for a group that is unset. -/
def capturedValue (line : Bytes) : Option (Nat × Nat) → Option Bytes
  | none => none
  | some (so, eo) => if eo < so then none else some ((line.drop so).take (eo - so))

/-- The loop over the groups from number `group` on. -/
def captureFields (spans : Nat → Option (Nat × Nat)) (line : Bytes) :
    Nat → List Bytes → Option Log
  | _, [] => some []
  | group, name :: names =>
      match capturedValue line (spans group) with
      | none => none
      | some value => (captureFields spans line (group + 1) names).map ((name, value) :: ·)

/-- `none` is the return value 1: the line does not match. -/
def logRegexParseLine (regexec : Regexec) (names : List Bytes) (line : Bytes) : Option Log :=
  match regexec line with
  | none => none
  | some spans => captureFields spans line 1 names

/-- The value of the first field of that name. -/
def logGet (log : Log) (key : Bytes) : Option Bytes :=
  (log.find? fun field => field.1 = key).map Prod.snd

/-- Without a filter every record matches. -/
def logFilterMatchFields (log : Log) : Option LogFilter → Bool
  | none => true
  | some filter =>
      match logGet log filter.key with
      | none => false
      | some value => match filter.op with
        | .equals => value == filter.value
        | .notEquals => value != filter.value
        | .contains => (strstr filter.value value).isSome
        | .greaterThan => match parseI64 value, parseI64 filter.value with
          | some lhs, some rhs => rhs < lhs
          | _, _ => false

/-- The loop over the fields; `first` stands for `i == 0`. -/
def writeFields (c : CJson) (first : Bool) (buf : Bytes) : Log → Option Bytes
  | [] => some buf
  | (name, value) :: rest => do
      let buf := if first then buf else buf ++ ascii ","
      let buf ← jsonlWriteString c buf name
      let buf ← jsonlWriteString c (buf ++ ascii ":") value
      writeFields c false buf rest

/-- The bytes printed; `none` is the return value -1. -/
def logOutputWriteJson (c : CJson) (log : Log) : Option Bytes := do
  let buf ← writeFields c true (ascii "\x7b") log
  pure (cstr (buf ++ ascii "\x7d\n"))

/-- Standard output, full log and exit code of the loop over the lines, in JSON format and
without aggregation. A record that cannot be written ends the loop. -/
def regexLines (c : CJson) (regexec : Regexec) (names : List Bytes) (filter : Option LogFilter) :
    List Bytes → Bytes × Bytes × Nat
  | [] => ([], [], 0)
  | line :: rest =>
      match logRegexParseLine regexec names (trimLine line) with
      | none => regexLines c regexec names filter rest
      | some log => match logOutputWriteJson c log with
        | none => ([], [], 2)
        | some text =>
            let later := regexLines c regexec names filter rest
            ((if logFilterMatchFields log filter then text else []) ++ later.1,
              text ++ later.2.1, later.2.2)

def regexMode (c : CJson) (regexec : Regexec) (names : List Bytes) (filter : Option LogFilter)
    (stdin : Bytes) : Bytes × Bytes × Nat :=
  regexLines c regexec names filter (pieces lf stdin)

/-- The records captured from the lines of the input, in order. -/
def capturedRecords (regexec : Regexec) (names : List Bytes) (stdin : Bytes) : List Log :=
  (pieces lf stdin).filterMap fun line => logRegexParseLine regexec names (trimLine line)

/-- Names and values are C strings. -/
def NulFree (log : Log) : Prop := ∀ field ∈ log, nul ∉ field.1 ∧ nul ∉ field.2

private theorem trimLine_nulFree (line : Bytes) : nul ∉ trimLine line := by
  intro mem
  rw [trimLine, List.mem_reverse] at mem
  have inner := (List.dropWhile_sublist _).mem mem
  rw [List.mem_reverse] at inner
  exact nul_not_mem_cstr line ((List.dropWhile_sublist _).mem inner)

private theorem captureFields_nulFree {spans : Nat → Option (Nat × Nat)} {line : Bytes}
    (lineFree : nul ∉ line) {group : Nat} {names : List Bytes} (namesFree : ∀ n ∈ names, nul ∉ n)
    {log : Log} (captured : captureFields spans line group names = some log) : NulFree log := by
  induction names generalizing group log with
  | nil =>
      cases captured
      simp [NulFree]
  | cons name names ih =>
      rw [captureFields] at captured
      split at captured
      · cases captured
      · rename_i value one
        obtain ⟨rest, later, rfl⟩ := Option.map_eq_some_iff.mp captured
        have valueFree : nul ∉ value := by
          intro mem
          rcases bounds : spans group with _ | ⟨so, eo⟩
          · simp [capturedValue, bounds] at one
          · rw [bounds, capturedValue] at one
            split_ifs at one
            obtain rfl := Option.some.inj one
            exact lineFree (List.mem_of_mem_drop (List.mem_of_mem_take mem))
        intro field mem
        rcases List.mem_cons.mp mem with rfl | tail
        · exact ⟨namesFree name List.mem_cons_self, valueFree⟩
        · exact ih (fun n hn => namesFree n (List.mem_cons_of_mem name hn)) later field tail

theorem capturedRecords_nulFree (regexec : Regexec) {names : List Bytes}
    (namesFree : ∀ n ∈ names, nul ∉ n) (stdin : Bytes) :
    ∀ log ∈ capturedRecords regexec names stdin, NulFree log := by
  intro log mem
  obtain ⟨line, _, captured⟩ := List.mem_filterMap.mp mem
  rw [logRegexParseLine] at captured
  split at captured
  · cases captured
  · exact captureFields_nulFree (trimLine_nulFree line) namesFree captured

end StreamDataPipeline.LogParse.RegexMode
