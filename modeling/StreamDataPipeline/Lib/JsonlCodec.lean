/- The JSON Lines getters of the shared library (lib/jsonl_codec.c). -/

import StreamDataPipeline.Foundations.JsonText

set_option autoImplicit false
set_option relaxedAutoImplicit false

namespace StreamDataPipeline.Lib.JsonlCodec

open Foundations Foundations.ByteString Foundations.Decimal Foundations.Json Foundations.JsonText

/-- The JSON library. Its parser gives the value and the text behind it. -/
structure CJson where
  parseWithOpts : Bytes → Option (JsonValue × Bytes)
  printUnformatted : JsonValue → Option Bytes

/-- A correct parser of the dialect, and a printer of strings in which control bytes are
escaped and which that parser reads back. -/
structure CJson.IsCorrect (c : CJson) (d : Dialect) : Prop where
  parses : ∀ s, c.parseWithOpts s = parseText d s
  prints : ∀ s, nul ∉ s → ∃ body, c.printUnformatted (.string s) = some (quoted body) ∧
    (∀ b ∈ body, 32 ≤ b) ∧
    ∀ fuel rest, body.length < fuel →
      stringBody d fuel (body ++ quote :: rest) = some (s, rest)

/-- The parser of a dialect, with the usual escapes in printed strings. -/
def CJson.ofDialect (d : Dialect) : CJson where
  parseWithOpts := parseText d
  printUnformatted
    | .string s => some (printString s)
    | .null => some (ascii "null")
    | .bool b => some (if b then ascii "true" else ascii "false")
    | _ => none

theorem CJson.ofDialect_isCorrect (d : Dialect) : (CJson.ofDialect d).IsCorrect d where
  parses := fun _ => rfl
  prints := fun s _ => ⟨s.flatMap escapeByte, rfl, printed_ge s, fun _ rest enough =>
    stringBody_printed s (Nat.lt_of_le_of_lt (length_le_escaped s) enough) rest⟩

def jsonlMaxSafeInteger : ℚ := 9007199254740991

/-- The members of a line that is one object. -/
def parseObject (c : CJson) (line : Bytes) : Option (List (Bytes × JsonValue)) :=
  match c.parseWithOpts line with
  | some (.object members, parseEnd) =>
      if parseEnd.dropWhile isSpace = [] then some members else none
  | _ => none

/-- The first member under the key; names are compared as C strings. -/
def getItem (members : List (Bytes × JsonValue)) (key : Bytes) : Option JsonValue :=
  (members.find? fun member => cstr member.1 = key).map Prod.snd

/-- `none` is the return value -1. -/
def jsonlGetString (c : CJson) (line key : Bytes) (outSize : Nat) : Option Bytes := do
  let members ← parseObject c line
  match getItem members key with
  | some (.string bytes) => if outSize ≤ (cstr bytes).length then none else some (cstr bytes)
  | _ => none

/-- Only whole numbers of the safe range pass. -/
def jsonlGetInt64 (c : CJson) (line key : Bytes) : Option Int := do
  let members ← parseObject c line
  match getItem members key with
  | some (.number value) =>
      if value < -jsonlMaxSafeInteger ∨ jsonlMaxSafeInteger < value then none
      else if value.isInt then some value.num
      else none
  | _ => none

def jsonlGetUint64 (c : CJson) (line key : Bytes) : Option Nat := do
  let members ← parseObject c line
  match getItem members key with
  | some (.number value) =>
      if value < 0 ∨ jsonlMaxSafeInteger < value then none
      else if value.isInt then some value.num.toNat
      else none
  | _ => none

theorem jsonlGetUint64_le {c : CJson} {line key : Bytes} {n : Nat}
    (got : jsonlGetUint64 c line key = some n) : n ≤ 2 ^ 53 - 1 := by
  obtain ⟨members, -, got⟩ := Option.bind_eq_some_iff.mp got
  split at got
  · rename_i value _
    split_ifs at got with outside whole
    cases got
    rw [not_or, not_lt, not_lt] at outside
    have exact_num : value = value.num := Rat.eq_num_of_isInt whole
    have bound := outside.2
    rw [exact_num, jsonlMaxSafeInteger] at bound
    have small : value.num ≤ 9007199254740991 := by exact_mod_cast bound
    omega
  · cases got

def jsonlGetBool (c : CJson) (line key : Bytes) : Option Bool := do
  let members ← parseObject c line
  match getItem members key with
  | some (.bool b) => some b
  | _ => none

/-- The text of a field that is neither an object nor an array. -/
def jsonlGetScalarText (c : CJson) (line key : Bytes) (outSize : Nat) : Option Bytes := do
  let members ← parseObject c line
  match getItem members key with
  | none | some (.object _) | some (.array _) => none
  | some (.string bytes) => if outSize ≤ (cstr bytes).length then none else some (cstr bytes)
  | some item => do
      let printed ← c.printUnformatted item
      if outSize ≤ printed.length then none else some printed

/-- Append the JSON text of a C string to a buffer. -/
def jsonlWriteString (c : CJson) (buf value : Bytes) : Option Bytes :=
  (c.printUnformatted (.string (cstr value))).map fun printed => buf ++ cstr printed

/-- What is appended is a quoted text that is read back as the C string. -/
theorem jsonlWriteString_quoted {c : CJson} {d : Dialect} (correct : c.IsCorrect d)
    (buf value : Bytes) :
    ∃ body, jsonlWriteString c buf value = some (buf ++ quoted body) ∧ (∀ b ∈ body, 32 ≤ b) ∧
      NameReads d body (cstr value) := by
  obtain ⟨body, printed, printable, read⟩ := correct.prints (cstr value) (nul_not_mem_cstr value)
  have visible : ∀ b ∈ quoted body, 32 ≤ b := quoted_bytes (fun _ ge => ge) printable
  have nulFree : nul ∉ quoted body := fun mem => absurd (visible nul mem) (by decide)
  refine ⟨body, ?_, printable, read⟩
  rw [jsonlWriteString, printed, Option.map_some, cstr_of_nul_free nulFree]

def jsonlIsObject (c : CJson) (line : Bytes) : Bool := (parseObject c line).isSome

end StreamDataPipeline.Lib.JsonlCodec
