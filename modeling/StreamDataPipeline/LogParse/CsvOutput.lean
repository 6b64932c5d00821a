/- CSV output of captured records (log_output_format.c). -/

import StreamDataPipeline.Foundations.Csv
import StreamDataPipeline.LogParse.RegexMode
import StreamDataPipeline.LogParse.SplitFields

set_option autoImplicit false
set_option relaxedAutoImplicit false

namespace StreamDataPipeline.LogParse.CsvOutput

open Foundations Foundations.ByteString RegexMode
open Foundations.Json (quote)
open SplitFields (comma)

/-- The loop over the characters of a field that is quoted. -/
def appendQuoted (buf : Bytes) : Bytes → Bytes
  | [] => buf
  | c :: rest => appendQuoted ((if c = quote then buf ++ [quote] else buf) ++ [c]) rest

def appendCsvField (buf s : Bytes) : Bytes :=
  let quoted := (strchr comma s).isSome || (strchr quote s).isSome || (strchr lf s).isSome ||
    (strchr cr s).isSome
  if quoted = false then buf ++ cstr s
  else appendQuoted (buf ++ [quote]) (cstr s) ++ [quote]

/-- The loop over the fields; `first` stands for `i == 0`. -/
def appendCsvFields (first : Bool) (buf : Bytes) : Log → Bytes
  | [] => buf
  | (_, value) :: rest =>
      appendCsvFields false (appendCsvField (if first then buf else buf ++ [comma]) value) rest

/-- The bytes printed. -/
def logOutputEmitCsv (log : Log) : Bytes := cstr (appendCsvFields true [] log ++ [lf])

/-- Fields separated by commas, quotes doubled inside quotes, records ended by a line feed. -/
def rfc4180 : Csv.Dialect UInt8 where
  separator := comma
  quote := quote
  terminator := lf
  bare c := c ≠ comma && c ≠ quote && c ≠ lf && c ≠ cr
  bare_separator := by decide
  bare_quote := by decide
  bare_terminator := by decide
  separator_ne_quote := by decide
  terminator_ne_quote := by decide
  terminator_ne_separator := by decide

theorem appendQuoted_eq (s buf : Bytes) :
    appendQuoted buf s =
      buf ++ s.flatMap fun c => if c = quote then [quote, quote] else [c] := by
  induction s generalizing buf with
  | nil => simp [appendQuoted]
  | cons c rest ih =>
      rw [appendQuoted, ih, List.flatMap_cons]
      split_ifs with doubled
      · simp [doubled]
      · simp

theorem special_iff (s : Bytes) :
    ((strchr comma s).isSome || (strchr quote s).isSome || (strchr lf s).isSome ||
      (strchr cr s).isSome) = !s.all rfc4180.bare := by
  have found : ∀ c, (strchr c s).isSome = decide (c ∈ s) := by
    intro c
    rw [Bool.eq_iff_iff, strchr_isSome_iff, decide_eq_true_iff]
  rw [found, found, found, found, Bool.eq_iff_iff]
  simp only [Bool.or_eq_true, decide_eq_true_eq, Bool.not_eq_true', List.all_eq_false,
    rfc4180, Bool.and_eq_true, not_and_or]
  constructor
  · rintro (((mem | mem) | mem) | mem) <;> exact ⟨_, mem, by simp⟩
  · rintro ⟨c, mem, special⟩
    simp only [ne_eq, not_not] at special
    rcases special with ((rfl | rfl) | rfl) | rfl
    all_goals simp [mem]

theorem appendCsvField_eq {s : Bytes} (nulFree : nul ∉ s) (buf : Bytes) :
    appendCsvField buf s = buf ++ Csv.encodeField rfc4180 s := by
  simp only [appendCsvField, special_iff, cstr_of_nul_free nulFree, Csv.encodeField]
  cases s.all rfc4180.bare with
  | true => rfl
  | false => simp [appendQuoted_eq, Csv.quotedField, rfc4180]

theorem appendCsvFields_eq {log : Log} (nulFree : ∀ field ∈ log, nul ∉ field.2) (buf : Bytes) :
    appendCsvFields false buf log =
      buf ++ log.flatMap fun field => comma :: Csv.encodeField rfc4180 field.2 := by
  induction log generalizing buf with
  | nil => simp [appendCsvFields]
  | cons field rest ih =>
      obtain ⟨here, later⟩ := List.forall_mem_cons.mp nulFree
      rw [appendCsvFields, ih later, appendCsvField_eq here]
      simp

theorem encodeRecord_cons (value : Bytes) (rest : List Bytes) :
    Csv.encodeRecord rfc4180 (value :: rest) =
      Csv.encodeField rfc4180 value ++
        rest.flatMap (fun value => comma :: Csv.encodeField rfc4180 value) ++ [lf] := by
  induction rest generalizing value with
  | nil => simp [Csv.encodeRecord, rfc4180]
  | cons next more ih =>
      have shape : Csv.encodeRecord rfc4180 (value :: next :: more) =
          Csv.encodeField rfc4180 value ++ comma :: Csv.encodeRecord rfc4180 (next :: more) := by
        simp [Csv.encodeRecord, List.intercalate_cons_cons, rfc4180]
      rw [shape, ih]
      simp

theorem nul_not_mem_encodeField {s : Bytes} (nulFree : nul ∉ s) :
    nul ∉ Csv.encodeField rfc4180 s := by
  intro mem
  rcases Csv.mem_encodeField mem with held | special
  · exact nulFree held
  · exact absurd special (by decide)

/-- What is printed is the record as the format writes it. -/
theorem logOutputEmitCsv_eq {log : Log} (some_field : log ≠ [])
    (nulFree : ∀ field ∈ log, nul ∉ field.2) :
    logOutputEmitCsv log = Csv.encodeRecord rfc4180 (log.map Prod.snd) := by
  obtain ⟨field, rest, rfl⟩ := List.exists_cons_of_ne_nil some_field
  obtain ⟨here, later⟩ := List.forall_mem_cons.mp nulFree
  have written : appendCsvFields true [] (field :: rest) ++ [lf] =
      Csv.encodeRecord rfc4180 ((field :: rest).map Prod.snd) := by
    rw [appendCsvFields, appendCsvFields_eq later, appendCsvField_eq here, List.map_cons,
      encodeRecord_cons, List.flatMap_map]
    rfl
  have clean : nul ∉ Csv.encodeRecord rfc4180 ((field :: rest).map Prod.snd) := by
    rw [List.map_cons, encodeRecord_cons, List.flatMap_map]
    simp only [List.mem_append, List.mem_flatMap, List.mem_cons, not_or, not_exists, not_and]
    refine ⟨⟨nul_not_mem_encodeField here, fun other mem => ?_⟩, by decide⟩
    exact ⟨by decide, nul_not_mem_encodeField (later other mem)⟩
  rw [logOutputEmitCsv, written, cstr_of_nul_free clean]

/-- Reading the printed bytes gives the record and nothing else, so records of as many fields that
print the same bytes have the same values. -/
theorem csv_decodes {log : Log} (some_field : log ≠ [])
    (nulFree : ∀ field ∈ log, nul ∉ field.2) :
    Csv.read rfc4180 (logOutputEmitCsv log) = some [log.map Prod.snd] ∧
      ∀ other : Log, other.length = log.length → (∀ field ∈ other, nul ∉ field.2) →
        other.map Prod.snd ≠ log.map Prod.snd → logOutputEmitCsv other ≠ logOutputEmitCsv log := by
  have decodes : ∀ log : Log, log ≠ [] → (∀ field ∈ log, nul ∉ field.2) →
      Csv.read rfc4180 (logOutputEmitCsv log) = some [log.map Prod.snd] := by
    intro log present clean
    have some_value : ∀ fields ∈ [log.map Prod.snd], fields ≠ [] := by simpa using present
    have round := Csv.read_encodeRecords (d := rfc4180) some_value
    rwa [List.flatMap_singleton, ← logOutputEmitCsv_eq present clean] at round
  refine ⟨decodes log some_field nulFree, ?_⟩
  intro other length clean different same
  have present : other ≠ [] := by
    rintro rfl
    exact some_field (List.eq_nil_of_length_eq_zero length.symm)
  have both := (decodes other present clean).symm.trans
    ((congrArg (Csv.read rfc4180) same).trans (decodes log some_field nulFree))
  exact different (List.singleton_inj.mp (Option.some.inj both))

theorem csv_decodes_quoted :
    Csv.read rfc4180 (logOutputEmitCsv [(ascii "a", ascii "x,\"y\""), (ascii "b", [])]) =
      some [[ascii "x,\"y\"", []]] := by
  have some_field : [(ascii "a", ascii "x,\"y\""), (ascii "b", [])] ≠ [] := by decide
  exact (csv_decodes some_field (by decide)).1

end StreamDataPipeline.LogParse.CsvOutput
