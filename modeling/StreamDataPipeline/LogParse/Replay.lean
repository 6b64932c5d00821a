/- Filtering the full log of a regex run again, in JSON Lines mode. -/

import Mathlib.Data.List.Forall2
import StreamDataPipeline.LogParse.RegexMode

/-!
The record is printed as one object whose members are its fields in order. Both
filters read the first field of a name, but the one over JSON Lines copies its text
to a buffer of 1024 bytes first.
-/

set_option autoImplicit false
set_option relaxedAutoImplicit false

namespace StreamDataPipeline.LogParse.Replay

open Foundations.ByteString Foundations.Decimal Foundations.Lines Foundations.Json
  Foundations.JsonText
open Lib.JsonlCodec FilterExpr JsonlMode RegexMode

variable {c : CJson} {d : Dialect}

/-- A printed member that is read back as a field. -/
def FieldWritten (d : Dialect) (member field : Bytes × Bytes) : Prop :=
  EntryReads d member (field.1, .string field.2) ∧
    (∀ b ∈ member.1, 32 ≤ b) ∧ ∀ b ∈ member.2, 32 ≤ b

private theorem writeFields_members (correct : c.IsCorrect d) {log : Log} (nulFree : NulFree log)
    (first : Bool) (buf : Bytes) :
    ∃ members, List.Forall₂ (FieldWritten d) members log ∧
      writeFields c first buf log =
        some (buf ++ if first then commaSeparated (members.map memberText)
          else (members.map memberText).flatMap (44 :: ·)) := by
  induction log generalizing first buf with
  | nil => exact ⟨[], .nil, by cases first <;> simp [writeFields, commaSeparated]⟩
  | cons field log ih =>
      obtain ⟨name, value⟩ := field
      obtain ⟨nameFree, valueFree⟩ := nulFree _ List.mem_cons_self
      obtain ⟨key, keyWritten, keyVisible, keyRead⟩ := jsonlWriteString_quoted correct
        (if first then buf else buf ++ ascii ",") name
      obtain ⟨text, textWritten, textVisible, textRead⟩ := jsonlWriteString_quoted correct
        ((if first then buf else buf ++ ascii ",") ++ quoted key ++ ascii ":") value
      rw [cstr_of_nul_free nameFree] at keyRead
      rw [cstr_of_nul_free valueFree] at textRead
      have written : FieldWritten d (key, quoted text) (name, value) :=
        ⟨⟨keyRead, reads_string textRead⟩, keyVisible, quoted_bytes (fun _ ge => ge) textVisible⟩
      obtain ⟨members, fields, rest⟩ := ih
        (fun f hf => nulFree f (List.mem_cons_of_mem _ hf)) false
        ((if first then buf else buf ++ ascii ",") ++ quoted key ++ ascii ":" ++ quoted text)
      refine ⟨(key, quoted text) :: members, .cons written fields, ?_⟩
      have comma : ascii "," = [44] := rfl
      have colon : ascii ":" = [58] := rfl
      rw [writeFields]
      simp only [Option.bind_eq_bind, keyWritten, Option.bind_some, textWritten, rest]
      cases first with
      | false => simp [comma, colon, memberText]
      | true => simp [colon, memberText, commaSeparated_flatMap]

private theorem written_visible {members : List (Bytes × Bytes)} {log : Log}
    (fields : List.Forall₂ (FieldWritten d) members log) :
    ∀ member ∈ members, (∀ b ∈ member.1, 32 ≤ b) ∧ ∀ b ∈ member.2, 32 ≤ b := by
  induction fields with
  | nil => simp
  | cons written _ ih => exact List.forall_mem_cons.mpr ⟨written.2, ih⟩

theorem logOutputWriteJson_object (correct : c.IsCorrect d) {log : Log} (nulFree : NulFree log) :
    ∃ members, List.Forall₂ (FieldWritten d) members log ∧
      logOutputWriteJson c log = some (objectText members ++ [lf]) ∧
      ∀ b ∈ objectText members, 32 ≤ b := by
  have opening : ascii "\x7b" = [123] := rfl
  have ending : ascii "\x7d\n" = [125, lf] := rfl
  obtain ⟨members, fields, written⟩ := writeFields_members correct nulFree true [123]
  have visible : ∀ b ∈ objectText members, 32 ≤ b :=
    objectText_bytes (fun _ ge => ge) (written_visible fields)
  refine ⟨members, fields, ?_, visible⟩
  have nulFree : nul ∉ objectText members := fun mem => absurd (visible nul mem) (by decide)
  rw [logOutputWriteJson, opening, written, ending]
  have text : [123] ++ commaSeparated (members.map memberText) ++ [125, lf] =
      objectText members ++ [lf] := by simp [objectText]
  simp only [if_true, Option.bind_eq_bind, Option.bind_some, Option.pure_def, text]
  congr 1
  apply cstr_of_nul_free
  rw [List.mem_append, not_or]
  exact ⟨nulFree, by decide⟩

private theorem parseObject_record (correct : c.IsCorrect d) {members : List (Bytes × Bytes)}
    {log : Log} (fields : List.Forall₂ (FieldWritten d) members log) :
    parseObject c (objectText members) =
      some (log.map fun field => (field.1, JsonValue.string field.2)) := by
  have entries : List.Forall₂ (EntryReads d) members
      (log.map fun field => (field.1, JsonValue.string field.2)) :=
    List.forall₂_map_right_iff.mpr (fields.imp fun _ _ written => written.1)
  have read := (reads_entries entries).parseText
  simp [parseObject, correct.parses, read]

private theorem getItem_record {log : Log} (nulFree : NulFree log) (key : Bytes) :
    getItem (log.map fun field => (field.1, JsonValue.string field.2)) key =
      (logGet log key).map JsonValue.string := by
  induction log with
  | nil => rfl
  | cons field log ih =>
      have rest := ih fun f hf => nulFree f (List.mem_cons_of_mem field hf)
      have name := cstr_of_nul_free (nulFree field List.mem_cons_self).1
      simp only [getItem, logGet, List.map_cons, List.find?_cons, name] at rest ⊢
      by_cases found : field.1 = key
      · simp [found]
      · simpa [found] using rest

private theorem logGet_nulFree {log : Log} (nulFree : NulFree log) {key value : Bytes}
    (found : logGet log key = some value) : nul ∉ value := by
  obtain ⟨field, here, rfl⟩ := Option.map_eq_some_iff.mp found
  exact (nulFree field (List.mem_of_find?_eq_some here)).2

/-- The comparison of a text with the value of a filter, for the three textual operators. -/
def Compares (filter : LogFilter) (value : Bytes) : Prop :=
  match filter.op with
  | .equals => value = filter.value
  | .notEquals => value ≠ filter.value
  | .contains => (strstr filter.value value).isSome = true
  | .greaterThan => False

/-- A value that fills the buffer of 1024 bytes is one that the operator rejects: another text
than the one asked for, the one ruled out, or one that does not contain the text asked for. -/
def LongValueRejected (filter : LogFilter) (log : Log) : Prop :=
  ∀ value ∈ logGet log filter.key, 1024 ≤ value.length → ¬ Compares filter value

private theorem matchFields_iff {filter : LogFilter} (textual : filter.op ≠ .greaterThan)
    (log : Log) :
    logFilterMatchFields log (some filter) = true ↔
      ∃ value, logGet log filter.key = some value ∧ Compares filter value := by
  cases found : logGet log filter.key with
  | none => simp [logFilterMatchFields, found]
  | some value =>
      simp only [logFilterMatchFields, found, Option.some.injEq, exists_eq_left', Compares]
      cases op : filter.op with
      | greaterThan => exact absurd op textual
      | equals => simp
      | notEquals => simp
      | contains => simp

private theorem matchJsonl_iff {filter : LogFilter} (textual : filter.op ≠ .greaterThan)
    {line : Bytes} (object : jsonlIsObject c line = true) :
    logFilterMatchJsonl c line (some filter) = some true ↔
      ∃ value, jsonlGetScalarText c line filter.key 1024 = some value ∧
        Compares filter value := by
  simp only [logFilterMatchJsonl, object, Bool.not_true, Bool.false_eq_true, if_false, Compares]
  cases op : filter.op with
  | greaterThan => exact absurd op textual
  | equals => simp [Option.map_eq_some_iff]
  | notEquals => simp [Option.map_eq_some_iff]
  | contains => simp [Option.map_eq_some_iff]

private theorem matchJsonl_record (correct : c.IsCorrect d) {filter : LogFilter}
    (textual : filter.op ≠ .greaterThan) {log : Log} (nulFree : NulFree log)
    {members : List (Bytes × Bytes)} (fields : List.Forall₂ (FieldWritten d) members log) :
    logFilterMatchJsonl c (objectText members) (some filter) = some true ↔
      ∃ value, logGet log filter.key = some value ∧ value.length < 1024 ∧
        Compares filter value := by
  have parsed := parseObject_record correct fields
  have object : jsonlIsObject c (objectText members) = true := by rw [jsonlIsObject, parsed]; rfl
  rw [matchJsonl_iff textual object]
  have text : jsonlGetScalarText c (objectText members) filter.key 1024 =
      (logGet log filter.key).bind fun value =>
        if 1024 ≤ value.length then none else some value := by
    simp only [jsonlGetScalarText, parsed, Option.bind_eq_bind, Option.bind_some,
      getItem_record nulFree]
    cases found : logGet log filter.key with
    | none => rfl
    | some value =>
        simp only [Option.map_some, Option.bind_some,
          cstr_of_nul_free (logGet_nulFree nulFree found)]
  rw [text]
  cases found : logGet log filter.key with
  | none => simp
  | some value =>
      simp only [Option.bind_some, Option.some.injEq, exists_eq_left']
      split_ifs with long
      · simp only [false_and, exists_false, false_iff, not_and]
        omega
      · simp only [Option.some.injEq, exists_eq_left']
        exact ⟨fun h => ⟨by omega, h⟩, fun h => h.2⟩

/-- The two filters agree on a record exactly if a long value is rejected anyway. -/
theorem record_agrees_iff (correct : c.IsCorrect d) {filter : LogFilter}
    (textual : filter.op ≠ .greaterThan) {log : Log} (nulFree : NulFree log) :
    ∃ line, logOutputWriteJson c log = some (line ++ [lf]) ∧
      ((logFilterMatchFields log (some filter) = true ↔
          logFilterMatchJsonl c line (some filter) = some true) ↔
        LongValueRejected filter log) := by
  obtain ⟨members, fields, written, _⟩ := logOutputWriteJson_object correct nulFree
  refine ⟨objectText members, written, ?_⟩
  rw [matchFields_iff textual, matchJsonl_record correct textual nulFree fields]
  constructor
  · intro agree value found long compares
    obtain ⟨other, same, short, _⟩ := agree.mp ⟨value, found, compares⟩
    obtain rfl := Option.some.inj (found.symm.trans same)
    omega
  · intro rejected
    constructor
    · rintro ⟨value, found, compares⟩
      by_cases long : 1024 ≤ value.length
      · exact absurd compares (rejected value found long)
      · exact ⟨value, found, by omega, compares⟩
    · rintro ⟨value, found, _, compares⟩
      exact ⟨value, found, compares⟩

/-- What is printed for a record. -/
def recordText (c : CJson) (log : Log) : Bytes := (logOutputWriteJson c log).getD []

section Run

variable {filter : LogFilter} {records : List Log}

private theorem regexLines_eq (correct : c.IsCorrect d) (regexec : Regexec) (names : List Bytes)
    (filter : Option LogFilter) (lines : List Bytes)
    (nulFree : ∀ log ∈ lines.filterMap fun line =>
      logRegexParseLine regexec names (trimLine line), NulFree log) :
    let records := lines.filterMap fun line => logRegexParseLine regexec names (trimLine line)
    regexLines c regexec names filter lines =
      (selected (recordText c) (fun log => logFilterMatchFields log filter) records,
        records.flatMap (recordText c), 0) := by
  induction lines with
  | nil => rfl
  | cons line lines ih =>
      rw [regexLines]
      cases captured : logRegexParseLine regexec names (trimLine line) with
      | none =>
          simp only [List.filterMap_cons, captured] at nulFree ⊢
          exact ih nulFree
      | some log =>
          simp only [List.filterMap_cons, captured] at nulFree ⊢
          obtain ⟨members, _, written, _⟩ :=
            logOutputWriteJson_object correct (nulFree log List.mem_cons_self)
          have text : recordText c log = objectText members ++ [lf] := by
            rw [recordText, written, Option.getD_some]
          have rest := ih fun l hl => nulFree l (List.mem_cons_of_mem log hl)
          simp only [written, rest, selected_cons, List.flatMap_cons, text]

private theorem pieces_records (correct : c.IsCorrect d)
    (nulFree : ∀ log ∈ records, NulFree log) :
    pieces lf (records.flatMap (recordText c)) = records.map (recordText c) := by
  induction records with
  | nil => rfl
  | cons log records ih =>
      obtain ⟨members, _, written, visible⟩ :=
        logOutputWriteJson_object correct (nulFree log List.mem_cons_self)
      have text : recordText c log = objectText members ++ [lf] := by
        rw [recordText, written, Option.getD_some]
      have oneLine : lf ∉ objectText members := fun mem => absurd (visible lf mem) (by decide)
      rw [List.flatMap_cons, List.map_cons, text, pieces_append (closed_line _),
        pieces_line oneLine, ih fun l hl => nulFree l (List.mem_cons_of_mem log hl)]
      rfl

/-- JSON Lines mode selects the line of the record. -/
def selectsLine (c : CJson) (filter : LogFilter) (log : Log) : Bool :=
  logFilterMatchJsonl c (trimLine (recordText c log)) (some filter) == some true

private theorem trimmed_record (correct : c.IsCorrect d) {log : Log} (nulFree : NulFree log) :
    ∃ members, List.Forall₂ (FieldWritten d) members log ∧
      trimLine (recordText c log) = objectText members ∧
      recordText c log = objectText members ++ [lf] := by
  obtain ⟨members, fields, written, visible⟩ := logOutputWriteJson_object correct nulFree
  have text : recordText c log = objectText members ++ [lf] := by
    rw [recordText, written, Option.getD_some]
  have free : nul ∉ objectText members := fun mem => absurd (visible nul mem) (by decide)
  refine ⟨members, fields, ?_, text⟩
  rw [text]
  exact trimLine_object free

private theorem selectsLine_iff (correct : c.IsCorrect d) (textual : filter.op ≠ .greaterThan)
    {log : Log} (nulFree : NulFree log) :
    selectsLine c filter log = true ↔
      ∃ value, logGet log filter.key = some value ∧ value.length < 1024 ∧
        Compares filter value := by
  obtain ⟨members, fields, trimmed, _⟩ := trimmed_record correct nulFree
  rw [selectsLine, trimmed, beq_iff_eq]
  exact matchJsonl_record correct textual nulFree fields

private theorem jsonlLine_record (correct : c.IsCorrect d) (filter : LogFilter) {log : Log}
    (nulFree : NulFree log) :
    (jsonlLine c (some filter) (recordText c log)).1 =
      if selectsLine c filter log then recordText c log else [] := by
  obtain ⟨members, _, trimmed, text⟩ := trimmed_record correct nulFree
  rw [jsonlLine, selectsLine, trimmed]
  cases answer : logFilterMatchJsonl c (objectText members) (some filter) with
  | none => rfl
  | some selects =>
      cases selects with
      | false => rfl
      | true => simp [text]

private theorem replay_records_iff (correct : c.IsCorrect d) (textual : filter.op ≠ .greaterThan)
    (nulFree : ∀ log ∈ records, NulFree log) :
    (jsonlMode c (some filter) (records.flatMap (recordText c))).1 =
        selected (recordText c) (fun log => logFilterMatchFields log (some filter)) records ↔
      ∀ log ∈ records, LongValueRejected filter log := by
  have replayed : (jsonlMode c (some filter) (records.flatMap (recordText c))).1 =
      selected (recordText c) (selectsLine c filter) records := by
    simp only [jsonlMode, pieces_records correct nulFree, List.map_map, List.flatMap_map]
    apply List.flatMap_congr
    intro log mem
    exact jsonlLine_record correct filter (nulFree log mem)
  have stricter : ∀ log ∈ records, selectsLine c filter log = true →
      logFilterMatchFields log (some filter) = true := by
    intro log mem chosen
    obtain ⟨value, found, _, compares⟩ :=
      (selectsLine_iff correct textual (nulFree log mem)).mp chosen
    exact (matchFields_iff textual log).mpr ⟨value, found, compares⟩
  have nonempty : ∀ log ∈ records, recordText c log ≠ [] := by
    intro log mem
    obtain ⟨members, _, _, text⟩ := trimmed_record correct (nulFree log mem)
    simp [text]
  rw [replayed, selected_eq_iff stricter nonempty]
  constructor
  · intro all log mem value found long compares
    have chosen := all log mem ((matchFields_iff textual log).mpr ⟨value, found, compares⟩)
    obtain ⟨other, same, short, _⟩ :=
      (selectsLine_iff correct textual (nulFree log mem)).mp chosen
    obtain rfl := Option.some.inj (found.symm.trans same)
    omega
  · intro rejected log mem matched
    obtain ⟨value, found, compares⟩ := (matchFields_iff textual log).mp matched
    apply (selectsLine_iff correct textual (nulFree log mem)).mpr
    by_cases long : 1024 ≤ value.length
    · exact absurd compares (rejected log mem value found long)
    · exact ⟨value, found, by omega, compares⟩

end Run

/-- Replaying a record, and replaying the full log of a whole regex run, gives the same selection
exactly if the filter rejects every long value of its field. -/
theorem replay_agrees_iff (correct : c.IsCorrect d) (filter : LogFilter)
    (textual : filter.op ≠ .greaterThan) :
    (∀ log, NulFree log → ∃ line, logOutputWriteJson c log = some (line ++ [lf]) ∧
      ((logFilterMatchFields log (some filter) = true ↔
          logFilterMatchJsonl c line (some filter) = some true) ↔
        LongValueRejected filter log)) ∧
    ∀ (regexec : Regexec) (names : List Bytes) (stdin : Bytes), (∀ n ∈ names, nul ∉ n) →
      ((jsonlMode c (some filter) (regexMode c regexec names (some filter) stdin).2.1).1 =
          (regexMode c regexec names (some filter) stdin).1 ↔
        ∀ log ∈ capturedRecords regexec names stdin, LongValueRejected filter log) := by
  constructor
  · intro log nulFree
    exact record_agrees_iff correct textual nulFree
  · intro regexec names stdin namesFree
    have nulFree := capturedRecords_nulFree regexec namesFree stdin
    have ran := regexLines_eq correct regexec names (some filter) (pieces lf stdin) nulFree
    rw [regexMode, ran]
    exact replay_records_iff correct textual nulFree

/-- A filter that asks for `x` in the field `a`. -/
def containsX : LogFilter := ⟨ascii "a", ascii "x", .contains⟩

theorem replay_agrees_on_short_value :
    ∃ line, logOutputWriteJson (.ofDialect exactDialect) [(ascii "a", ascii "xy")] =
        some (line ++ [lf]) ∧
      (logFilterMatchFields [(ascii "a", ascii "xy")] (some containsX) = true ↔
        logFilterMatchJsonl (.ofDialect exactDialect) line (some containsX) = some true) := by
  obtain ⟨line, written, agrees⟩ :=
    (replay_agrees_iff (CJson.ofDialect_isCorrect exactDialect) containsX (by decide)).1
      [(ascii "a", ascii "xy")] (by simp [NulFree]; decide)
  refine ⟨line, written, agrees.mpr ?_⟩
  intro value found long
  obtain rfl : ascii "xy" = value := Option.some.inj found
  exact absurd long (by decide)

/-- A value of 1024 bytes that contains the text asked for: regex mode selects the record, and
the line in the full log makes the filter of JSON Lines mode fail. -/
theorem long_value_not_replayed :
    ∃ line, logOutputWriteJson (.ofDialect exactDialect)
        [(ascii "a", List.replicate 1024 120)] = some (line ++ [lf]) ∧
      ¬ (logFilterMatchFields [(ascii "a", List.replicate 1024 120)] (some containsX) = true ↔
        logFilterMatchJsonl (.ofDialect exactDialect) line (some containsX) = some true) := by
  have nulFree : NulFree [(ascii "a", List.replicate 1024 120)] := by
    intro field mem
    obtain rfl := List.mem_singleton.mp mem
    refine ⟨by decide, fun zero => ?_⟩
    exact absurd (List.eq_of_mem_replicate zero) (by decide)
  have textual : containsX.op ≠ .greaterThan := by decide
  obtain ⟨line, written, agrees⟩ :=
    record_agrees_iff (CJson.ofDialect_isCorrect exactDialect) textual nulFree
  refine ⟨line, written, fun same => ?_⟩
  apply agrees.mp same (List.replicate 1024 120)
  · rfl
  · rw [List.length_replicate]
  · rfl

end StreamDataPipeline.LogParse.Replay
