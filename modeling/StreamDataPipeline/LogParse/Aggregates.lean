/- The aggregates of log_parse over one field of the matched records (log_parse.c). -/

import Mathlib.Algebra.BigOperators.Group.List.Basic
import StreamDataPipeline.LogParse.RegexMode

/-!
The sums are exact here. `atof` is a parameter: it is exact on the texts that are one decimal
numeral, and of its values on other texts nothing is known.
-/

set_option autoImplicit false
set_option relaxedAutoImplicit false

namespace StreamDataPipeline.LogParse.Aggregates

open Foundations.ByteString Foundations.Decimal Foundations.Lines Foundations.Json
open Lib.JsonlCodec FilterExpr JsonlMode RegexMode

/-- The value of a text that is one decimal numeral from its first to its last character. -/
def numeral (s : Bytes) : Option ℚ :=
  let signed := splitSign s
  let whole := signed.2.takeWhile isDigit
  let behind := signed.2.dropWhile isDigit
  let point := behind.head? = some 46
  let part := if point then behind.tail.takeWhile isDigit else []
  let rest := if point then behind.tail.dropWhile isDigit else behind
  if whole ++ part = [] then none
  else match exponent rest with
    | some (power, []) =>
        let magnitude : ℚ := digitsValue (whole ++ part) * 10 ^ (power - part.length)
        some (if signed.1 then -magnitude else magnitude)
    | _ => none

structure Atof where
  value : Bytes → ℚ
  exact : ∀ {s : Bytes} {q : ℚ}, numeral s = some q → value s = q

/-- The reading of whole numerals, with 0 for every other text. -/
def numeralAtof : Atof where
  value s := (numeral s).getD 0
  exact := by
    intro s q h
    rw [h, Option.getD_some]

inductive AggOp
  | sum | avg | min | max
  deriving DecidableEq

/-- `agg_sum`, `agg_min`, `agg_max` and `agg_count`. -/
structure Accumulators where
  sum : ℚ
  min : ℚ
  max : ℚ
  count : Nat
  deriving DecidableEq

def Accumulators.zero : Accumulators := ⟨0, 0, 0, 0⟩

/-- What both loops do with a value. -/
def accumulate (acc : Accumulators) (val : ℚ) : Accumulators :=
  let acc := if acc.count = 0 then { acc with min := val, max := val } else acc
  { sum := acc.sum + val
    min := if val < acc.min then val else acc.min
    max := if acc.max < val then val else acc.max
    count := acc.count + 1 }

/-- The index of the first field of that name, -1 being `none`. -/
def aggFieldIdx (names : List Bytes) (field : Bytes) : Option Nat := names.findIdx? (· == field)

/-- One line of regex mode. -/
def regexStep (regexec : Regexec) (atof : Atof) (names : List Bytes) (filter : Option LogFilter)
    (idx : Nat) (acc : Accumulators) (line : Bytes) : Accumulators :=
  match logRegexParseLine regexec names (trimLine line) with
  | none => acc
  | some log =>
      if logFilterMatchFields log filter then
        match log[idx]? with
        | some field => accumulate acc (atof.value field.2)
        | none => acc
      else acc

/-- One line of JSON Lines mode. -/
def jsonlStep (c : CJson) (filter : Option LogFilter) (field : Bytes) (acc : Accumulators)
    (line : Bytes) : Accumulators :=
  match logFilterMatchJsonl c (trimLine line) filter with
  | some true => match jsonlGetInt64 c (trimLine line) field with
    | some i64 => accumulate acc i64
    | none => acc
  | _ => acc

/-- The two modes of the program, with the libraries and the names that they read records by. -/
inductive Mode where
  | regex (regexec : Regexec) (atof : Atof) (names : List Bytes)
  | jsonl (c : CJson)

/-- The accumulators at the end of the input; `none` where the field is not one of the names. -/
def logParseAggregate (mode : Mode) (filter : Option LogFilter) (field stdin : Bytes) :
    Option Accumulators :=
  match mode with
  | .regex regexec atof names => (aggFieldIdx names field).map fun idx =>
      (pieces lf stdin).foldl (regexStep regexec atof names filter idx) .zero
  | .jsonl c => some ((pieces lf stdin).foldl (jsonlStep c filter field) .zero)

/-- The number that is printed. -/
def printedValue (acc : Accumulators) (op : AggOp) : ℚ :=
  if acc.count = 0 then 0
  else match op with
    | .sum => acc.sum
    | .avg => acc.sum / acc.count
    | .min => acc.min
    | .max => acc.max

section Purpose

/-- The aggregate of some numbers, 0 if there are none. -/
def IsAggregate (values : List ℚ) (v : ℚ) : AggOp → Prop
  | .sum => v = values.sum
  | .avg => v = values.sum / values.length
  | .min => if values = [] then v = 0 else v ∈ values ∧ ∀ x ∈ values, v ≤ x
  | .max => if values = [] then v = 0 else v ∈ values ∧ ∀ x ∈ values, x ≤ v

/-- Each number was counted, and every aggregate that may be printed is theirs. -/
def Summarises (acc : Accumulators) (values : List ℚ) : Prop :=
  acc.count = values.length ∧ ∀ op, IsAggregate values (printedValue acc op) op

def matchedRecords (regexec : Regexec) (names : List Bytes) (filter : Option LogFilter)
    (stdin : Bytes) : List Log :=
  (capturedRecords regexec names stdin).filter (logFilterMatchFields · filter)

def matchedLines (c : CJson) (filter : Option LogFilter) (stdin : Bytes) : List Bytes :=
  ((pieces lf stdin).map trimLine).filter fun line => logFilterMatchJsonl c line filter = some true

/-- The number under a key of an object. -/
def jsonNumber (c : CJson) (field line : Bytes) : Option ℚ :=
  match (parseObject c line).bind (getItem · field) with
  | some (.number value) => some value
  | _ => none

/-- The numeric values that the field has in the matched records. -/
def numericValues (mode : Mode) (filter : Option LogFilter) (field stdin : Bytes) : List ℚ :=
  match mode with
  | .regex regexec _ names =>
      (matchedRecords regexec names filter stdin).filterMap fun log =>
        (logGet log field).bind numeral
  | .jsonl c => (matchedLines c filter stdin).filterMap (jsonNumber c field)

/-- A whole number that a double and its neighbours tell apart. -/
def SafeInteger (q : ℚ) : Prop :=
  -jsonlMaxSafeInteger ≤ q ∧ q ≤ jsonlMaxSafeInteger ∧ q.isInt = true

instance : DecidablePred SafeInteger := fun _ => inferInstanceAs (Decidable (_ ∧ _))

/-- In regex mode the field of every matched record is a decimal numeral; in JSON Lines mode every
number that a matched record has there is a safe integer. -/
def Readable (mode : Mode) (filter : Option LogFilter) (field stdin : Bytes) : Prop :=
  match mode with
  | .regex regexec _ names =>
      ∀ log ∈ matchedRecords regexec names filter stdin,
        ∀ text ∈ logGet log field, (numeral text).isSome = true
  | .jsonl c =>
      ∀ line ∈ matchedLines c filter stdin, ∀ q ∈ jsonNumber c field line, SafeInteger q

end Purpose

section Fold

/-- The extremes and the sum of the values so far. -/
structure Accumulated (acc : Accumulators) (values : List ℚ) : Prop where
  count : acc.count = values.length
  sum : acc.sum = values.sum
  min : values ≠ [] → acc.min ∈ values ∧ ∀ x ∈ values, acc.min ≤ x
  max : values ≠ [] → acc.max ∈ values ∧ ∀ x ∈ values, x ≤ acc.max

theorem accumulated_zero : Accumulated .zero [] :=
  ⟨rfl, rfl, fun absent => absurd rfl absent, fun absent => absurd rfl absent⟩

theorem accumulate_spec {acc : Accumulators} {values : List ℚ} (so_far : Accumulated acc values)
    (val : ℚ) : Accumulated (accumulate acc val) (values ++ [val]) := by
  by_cases first : values = []
  · subst first
    have none_yet : acc.count = 0 := so_far.count
    have nothing : acc.sum = 0 := so_far.sum
    refine ⟨?_, ?_, fun _ => ?_, fun _ => ?_⟩ <;> simp [accumulate, none_yet, nothing]
  · have some_yet : acc.count ≠ 0 := by
      rw [so_far.count]
      exact fun empty => first (List.eq_nil_of_length_eq_zero empty)
    obtain ⟨lowMem, low⟩ := so_far.min first
    obtain ⟨highMem, high⟩ := so_far.max first
    refine ⟨?_, ?_, fun _ => ?_, fun _ => ?_⟩
    · simp only [accumulate, if_neg some_yet, List.length_append, List.length_singleton]
      rw [so_far.count]
    · simp [accumulate, some_yet, so_far.sum]
    · simp only [accumulate, if_neg some_yet, List.forall_mem_append, List.forall_mem_singleton]
      split_ifs with lower
      · exact ⟨by simp, fun x mem => le_trans lower.le (low x mem), le_refl _⟩
      · exact ⟨by simp [lowMem], low, not_lt.mp lower⟩
    · simp only [accumulate, if_neg some_yet, List.forall_mem_append, List.forall_mem_singleton]
      split_ifs with higher
      · exact ⟨by simp, fun x mem => le_trans (high x mem) higher.le, le_refl _⟩
      · exact ⟨by simp [highMem], high, not_lt.mp higher⟩

theorem foldl_accumulate (values : List ℚ) :
    Accumulated (values.foldl accumulate .zero) values := by
  induction values using List.reverseRecOn with
  | nil => exact accumulated_zero
  | append_singleton values val ih =>
      rw [List.foldl_append]
      exact accumulate_spec ih val

theorem summarises_of_accumulated {acc : Accumulators} {values : List ℚ}
    (all : Accumulated acc values) : Summarises acc values := by
  refine ⟨all.count, fun op => ?_⟩
  by_cases empty : values = []
  · have none_counted : acc.count = 0 := by rw [all.count, empty, List.length_nil]
    have zero : printedValue acc op = 0 := if_pos none_counted
    rw [zero, empty]
    cases op <;> simp [IsAggregate]
  · have counted : acc.count ≠ 0 := by
      rw [all.count]
      exact fun nothing => empty (List.eq_nil_of_length_eq_zero nothing)
    cases op with
    | sum => exact (if_neg counted).trans all.sum
    | avg =>
        apply (if_neg counted).trans
        rw [all.sum, all.count]
    | min => simpa [IsAggregate, empty, printedValue, counted] using all.min empty
    | max => simpa [IsAggregate, empty, printedValue, counted] using all.max empty

theorem foldl_filterMap {α : Type} (step : Accumulators → α → Accumulators) (value : α → Option ℚ)
    (adds : ∀ acc x, step acc x = (value x).elim acc (accumulate acc)) (xs : List α)
    (acc : Accumulators) :
    xs.foldl step acc = (xs.filterMap value).foldl accumulate acc := by
  induction xs generalizing acc with
  | nil => rfl
  | cons x rest ih =>
      rw [List.foldl_cons, ih, adds, List.filterMap_cons]
      cases value x <;> rfl

end Fold

section Values

theorem captureFields_names {spans : Nat → Option (Nat × Nat)} {line : Bytes} {group : Nat}
    {names : List Bytes} {log : Log} (captured : captureFields spans line group names = some log) :
    log.map Prod.fst = names := by
  induction names generalizing group log with
  | nil =>
      cases captured
      rfl
  | cons name names ih =>
      rw [captureFields] at captured
      cases one : capturedValue line (spans group) with
      | none =>
          rw [one] at captured
          cases captured
      | some value =>
          rw [one] at captured
          obtain ⟨rest, later, rfl⟩ := Option.map_eq_some_iff.mp captured
          rw [List.map_cons, ih later]

theorem logRegexParseLine_names {regexec : Regexec} {names : List Bytes} {line : Bytes} {log : Log}
    (parsed : logRegexParseLine regexec names line = some log) : log.map Prod.fst = names := by
  rw [logRegexParseLine] at parsed
  cases found : regexec line with
  | none =>
      rw [found] at parsed
      cases parsed
  | some spans =>
      rw [found] at parsed
      exact captureFields_names parsed

theorem getElem?_aggFieldIdx {log : Log} {field : Bytes} {idx : Nat}
    (index : aggFieldIdx (log.map Prod.fst) field = some idx) :
    (log[idx]?).map Prod.snd = logGet log field := by
  induction log generalizing idx with
  | nil => cases index
  | cons entry rest ih =>
      rw [aggFieldIdx, List.map_cons, List.findIdx?_cons] at index
      by_cases named : entry.1 = field
      · rw [if_pos (by simpa using named)] at index
        obtain rfl := Option.some.inj index
        simp [logGet, named]
      · rw [if_neg (by simpa using named)] at index
        obtain ⟨later, found, rfl⟩ := Option.map_eq_some_iff.mp index
        rw [List.getElem?_cons_succ, ih found, logGet, logGet, List.find?_cons_of_neg (by simpa)]

theorem length_filterMap_eq_iff {α β : Type} {f g : α → Option β}
    (le : ∀ x q, f x = some q → g x = some q) (xs : List α) :
    (xs.filterMap f).length ≤ (xs.filterMap g).length ∧
      ((xs.filterMap f).length = (xs.filterMap g).length ↔ ∀ x ∈ xs, f x = g x) := by
  induction xs with
  | nil => simp
  | cons x rest ih =>
      obtain ⟨fewer, same⟩ := ih
      rw [List.forall_mem_cons, ← same, List.filterMap_cons, List.filterMap_cons]
      cases first : f x with
      | some q =>
          rw [le x q first]
          simp only [List.length_cons, true_and]
          omega
      | none =>
          cases g x with
          | none => simpa using fewer
          | some q =>
              simp only [List.length_cons, reduceCtorEq, false_and, iff_false]
              omega

/-- What one line of regex mode adds up. -/
theorem regexStep_value {regexec : Regexec} {names : List Bytes} {field : Bytes} {idx : Nat}
    (index : aggFieldIdx names field = some idx) (atof : Atof) (filter : Option LogFilter)
    (acc : Accumulators) (line : Bytes) :
    regexStep regexec atof names filter idx acc line =
      (((logRegexParseLine regexec names (trimLine line)).filter
        (logFilterMatchFields · filter)).bind fun log =>
          (logGet log field).map atof.value).elim acc (accumulate acc) := by
  rw [regexStep]
  cases parsed : logRegexParseLine regexec names (trimLine line) with
  | none => rfl
  | some log =>
      have place : aggFieldIdx (log.map Prod.fst) field = some idx := by
        rw [logRegexParseLine_names parsed, index]
      have found := getElem?_aggFieldIdx place
      rw [Option.filter_some]
      split_ifs with matched
      · simp only [if_pos matched, Option.bind_some, ← found]
        cases log[idx]? <;> rfl
      · simp only [if_neg matched]
        rfl

theorem jsonlStep_value (c : CJson) (filter : Option LogFilter) (field : Bytes)
    (acc : Accumulators) (line : Bytes) :
    jsonlStep c filter field acc line =
      (if logFilterMatchJsonl c (trimLine line) filter = some true then
        (jsonlGetInt64 c (trimLine line) field).map Int.cast else none).elim acc
          (accumulate acc) := by
  rw [jsonlStep]
  cases logFilterMatchJsonl c (trimLine line) filter with
  | none => rfl
  | some matched =>
      cases matched with
      | false => rfl
      | true => cases jsonlGetInt64 c (trimLine line) field <;> rfl

theorem jsonlGetInt64_eq (c : CJson) (field line : Bytes) :
    (jsonlGetInt64 c line field).map (Int.cast : Int → ℚ) =
      (jsonNumber c field line).filter fun q => SafeInteger q := by
  rw [jsonlGetInt64, jsonNumber]
  cases parseObject c line with
  | none => rfl
  | some members =>
      simp only [Option.bind_eq_bind, Option.bind_some]
      cases getItem members field with
      | none => rfl
      | some item =>
          cases item with
          | number value =>
              simp only [Option.filter_some, decide_eq_true_eq]
              by_cases outside : value < -jsonlMaxSafeInteger ∨ jsonlMaxSafeInteger < value
              · rw [if_pos outside, if_neg]
                · rfl
                · rintro ⟨low, high, -⟩
                  rcases outside with below | above
                  · exact absurd low (not_le.mpr below)
                  · exact absurd high (not_le.mpr above)
              · obtain ⟨low, high⟩ := not_or.mp outside
                rw [if_neg outside]
                by_cases whole : value.isInt = true
                · rw [if_pos whole, if_pos ⟨not_lt.mp low, not_lt.mp high, whole⟩,
                    Option.map_some, ← Rat.eq_num_of_isInt whole]
                · rw [if_neg whole, if_neg fun safe => whole safe.2.2]
                  rfl
          | null => rfl
          | bool b => rfl
          | string bytes => rfl
          | array items => rfl
          | object members => rfl

end Values

section Exactness

theorem filter_filterMap_filterMap {α β γ : Type} (f : α → Option β) (p : β → Bool)
    (g : β → Option γ) (xs : List α) :
    ((xs.filterMap f).filter p).filterMap g =
      xs.filterMap fun x => ((f x).filter p).bind g := by
  rw [← List.filterMap_eq_filter, List.filterMap_filterMap, List.filterMap_filterMap]
  refine List.filterMap_congr fun x _ => ?_
  cases f x with
  | none => rfl
  | some y =>
      simp only [Option.bind_some, Option.filter_some, Option.guard]

/-- The accumulators of values that are read by a rule of which the other is a part, or the other
way round. -/
theorem summarises_iff {α : Type} {acc : Accumulators} {xs : List α} {taken numeric : α → Option ℚ}
    (all : Accumulated acc (xs.filterMap taken))
    (ordered : (∀ x q, taken x = some q → numeric x = some q) ∨
      ∀ x q, numeric x = some q → taken x = some q) :
    Summarises acc (xs.filterMap numeric) ↔ ∀ x ∈ xs, taken x = numeric x := by
  constructor
  · rintro ⟨count, -⟩
    rw [all.count] at count
    rcases ordered with le | ge
    · exact (length_filterMap_eq_iff le xs).2.mp count
    · exact fun x mem => ((length_filterMap_eq_iff ge xs).2.mp count.symm x mem).symm
  · intro agree
    rw [← List.filterMap_congr agree]
    exact summarises_of_accumulated all

theorem atof_agrees_iff (atof : Atof) (text : Option Bytes) :
    (∀ q, text.bind numeral = some q → text.map atof.value = some q) ∧
      (text.map atof.value = text.bind numeral ↔ ∀ t ∈ text, (numeral t).isSome = true) := by
  cases text with
  | none => simp
  | some t =>
      cases value : numeral t with
      | none => simp [value]
      | some q => simp [value, atof.exact value]

theorem regex_exact_iff {regexec : Regexec} {atof : Atof} {names : List Bytes}
    {filter : Option LogFilter} {field stdin : Bytes} {acc : Accumulators}
    (ran : logParseAggregate (.regex regexec atof names) filter field stdin = some acc) :
    Summarises acc (numericValues (.regex regexec atof names) filter field stdin) ↔
      Readable (.regex regexec atof names) filter field stdin := by
  obtain ⟨idx, index, rfl⟩ := Option.map_eq_some_iff.mp ran
  have all := foldl_accumulate ((pieces lf stdin).filterMap fun line =>
    ((logRegexParseLine regexec names (trimLine line)).filter
      (logFilterMatchFields · filter)).bind fun log => (logGet log field).map atof.value)
  rw [← foldl_filterMap _ _ (regexStep_value index atof filter)] at all
  rw [numericValues, matchedRecords, capturedRecords, filter_filterMap_filterMap,
    summarises_iff all]
  · constructor
    · intro agree log mem
      obtain ⟨captured, matched⟩ := List.mem_filter.mp mem
      obtain ⟨line, read, parsed⟩ := List.mem_filterMap.mp captured
      have same := agree line read
      rw [parsed, Option.filter_some, if_pos matched] at same
      exact (atof_agrees_iff atof _).2.mp same
    · intro readable line read
      cases parsed : logRegexParseLine regexec names (trimLine line) with
      | none => rfl
      | some log =>
          rw [Option.filter_some]
          split_ifs with matched
          · exact (atof_agrees_iff atof _).2.mpr (readable log (List.mem_filter.mpr
              ⟨List.mem_filterMap.mpr ⟨line, read, parsed⟩, matched⟩))
          · rfl
  · refine .inr fun line q value => ?_
    obtain ⟨log, matched, value⟩ := Option.bind_eq_some_iff.mp value
    rw [matched, Option.bind_some]
    exact (atof_agrees_iff atof _).1 q value

theorem jsonl_exact_iff {c : CJson} {filter : Option LogFilter} {field stdin : Bytes}
    {acc : Accumulators} (ran : logParseAggregate (.jsonl c) filter field stdin = some acc) :
    Summarises acc (numericValues (.jsonl c) filter field stdin) ↔
      Readable (.jsonl c) filter field stdin := by
  obtain rfl := Option.some.inj ran
  have all := foldl_accumulate ((pieces lf stdin).filterMap fun line =>
    if logFilterMatchJsonl c (trimLine line) filter = some true then
      (jsonlGetInt64 c (trimLine line) field).map (Int.cast : Int → ℚ) else none)
  rw [← foldl_filterMap _ _ (jsonlStep_value c filter field)] at all
  have values : numericValues (.jsonl c) filter field stdin =
      (pieces lf stdin).filterMap fun line =>
        if logFilterMatchJsonl c (trimLine line) filter = some true then
          jsonNumber c field (trimLine line) else none := by
    rw [numericValues, matchedLines, List.filterMap_filter, List.filterMap_map]
    refine List.filterMap_congr fun line _ => ?_
    simp
  rw [values, summarises_iff all]
  · constructor
    · intro agree line mem q number
      obtain ⟨trimmed, matched⟩ := List.mem_filter.mp mem
      obtain ⟨raw, read, rfl⟩ := List.mem_map.mp trimmed
      have same := agree raw read
      rw [if_pos (by simpa using matched), if_pos (by simpa using matched), jsonlGetInt64_eq,
        number] at same
      simpa using same
    · intro readable line read
      split_ifs with matched
      · rw [jsonlGetInt64_eq]
        have mem : trimLine line ∈ matchedLines c filter stdin :=
          List.mem_filter.mpr ⟨List.mem_map_of_mem read, by simpa using matched⟩
        cases number : jsonNumber c field (trimLine line) with
        | none => rfl
        | some q => rw [Option.filter_some, if_pos (by simpa using readable _ mem q number)]
      · rfl
  · refine .inl fun line q value => ?_
    split_ifs at value ⊢ with matched
    rw [jsonlGetInt64_eq] at value
    exact (Option.filter_eq_some_iff.mp value).1

/-- The aggregates that are printed are those of the numeric values of the matched records exactly
if every matched record has a field that its mode can read: a numeral in regex mode, no number but
safe integers in JSON Lines mode. -/
theorem aggregates_exact_iff (mode : Mode) (filter : Option LogFilter) {field stdin : Bytes}
    {acc : Accumulators} (ran : logParseAggregate mode filter field stdin = some acc) :
    Summarises acc (numericValues mode filter field stdin) ↔ Readable mode filter field stdin := by
  cases mode with
  | regex regexec atof names => exact regex_exact_iff ran
  | jsonl c => exact jsonl_exact_iff ran

theorem aggregates_exact_sum :
    Summarises ⟨7, 3, 4, 2⟩ (numericValues (.jsonl (.ofDialect exactDialect)) none (ascii "v")
      (ascii "\x7b\"v\":3\x7d\n\x7b\"v\":\"x\"\x7d\n\x7b\"v\":4\x7d\n")) := by
  have ran : logParseAggregate (.jsonl (.ofDialect exactDialect)) none (ascii "v")
      (ascii "\x7b\"v\":3\x7d\n\x7b\"v\":\"x\"\x7d\n\x7b\"v\":4\x7d\n") =
      some ⟨7, 3, 4, 2⟩ := by
    decide +kernel
  exact (aggregates_exact_iff _ none ran).mpr (by unfold Readable; decide +kernel)

/-- A number with a fraction is left out in JSON Lines mode, and a text that is no numeral is
counted in regex mode. -/
theorem fraction_left_out_and_word_counted :
    (∃ acc, logParseAggregate (.jsonl (.ofDialect exactDialect)) none (ascii "v")
        (ascii "\x7b\"v\":1.5\x7d\n") = some acc ∧ printedValue acc .sum = 0 ∧
      numericValues (.jsonl (.ofDialect exactDialect)) none (ascii "v")
        (ascii "\x7b\"v\":1.5\x7d\n") = [3 / 2]) ∧
      ∃ acc, logParseAggregate (.regex (fun _ => some fun _ => some (0, 3)) numeralAtof [ascii "v"])
        none (ascii "v") (ascii "abc\n") = some acc ∧ acc.count = 1 ∧
      numericValues (.regex (fun _ => some fun _ => some (0, 3)) numeralAtof [ascii "v"])
        none (ascii "v") (ascii "abc\n") = [] :=
  ⟨⟨.zero, by decide +kernel⟩, ⟨0, 0, 0, 1⟩, by decide +kernel⟩

end Exactness

end StreamDataPipeline.LogParse.Aggregates
