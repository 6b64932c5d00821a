/- Which lines the full log of JSON Lines mode receives. -/

import StreamDataPipeline.LogParse.JsonlMode

/-!
A line is logged behind the call of the filter, so it is lost where the filter has
no text to compare.
-/

set_option autoImplicit false
set_option relaxedAutoImplicit false

namespace StreamDataPipeline.LogParse.FullLog

open Foundations.ByteString Foundations.Lines Foundations.Json
open Lib.JsonlCodec FilterExpr JsonlMode

/-- Every trimmed input line that is a JSON object, in order. -/
def auditTrail (c : CJson) (stdin : Bytes) : Bytes :=
  selected (fun line => trimLine line ++ [lf]) (fun line => jsonlIsObject c (trimLine line))
    (pieces lf stdin)

/-- A scalar whose text is shorter than the buffer that it is copied to. -/
def ScalarFits (c : CJson) (size : Nat) : Option JsonValue → Prop
  | none | some (.object _) | some (.array _) => False
  | some (.string bytes) => (cstr bytes).length < size
  | some item => ∃ printed, c.printUnformatted item = some printed ∧ printed.length < size

/-- The filter compares numbers, or finds a short scalar under its key. -/
def Comparable (c : CJson) (filter : Option LogFilter) (line : Bytes) : Prop :=
  ∀ f ∈ filter, f.op = .greaterThan ∨
    ∀ members ∈ parseObject c line, ScalarFits c 1024 (getItem members f.key)

theorem scalarText_isSome_iff (c : CJson) (line key : Bytes) (size : Nat) :
    (jsonlGetScalarText c line key size).isSome = true ↔
      ∃ members, parseObject c line = some members ∧ ScalarFits c size (getItem members key) := by
  cases object : parseObject c line with
  | none => simp [jsonlGetScalarText, object]
  | some members =>
      simp only [jsonlGetScalarText, object, Option.bind_eq_bind, Option.bind_some,
        Option.some.injEq, exists_eq_left']
      cases item : getItem members key with
      | none => simp [ScalarFits]
      | some value =>
          have printed : (c.printUnformatted value >>= fun printed =>
              if size ≤ printed.length then none else some printed).isSome = true ↔
              ∃ printed, c.printUnformatted value = some printed ∧ printed.length < size := by
            cases text : c.printUnformatted value with
            | none => simp
            | some printed =>
                simp only [Option.bind_eq_bind, Option.bind_some, Option.some.injEq,
                  exists_eq_left']
                split_ifs with long
                · simp [long]
                · simp only [Option.isSome_some, true_iff]
                  omega
          cases value with
          | object members => simp [ScalarFits]
          | array items => simp [ScalarFits]
          | string bytes =>
              simp only [ScalarFits]
              split_ifs with long
              · simp [long]
              · simp only [Option.isSome_some, true_iff]
                omega
          | null => exact printed
          | bool b => exact printed
          | number n => exact printed

theorem match_isSome_iff (c : CJson) (line : Bytes) (filter : Option LogFilter) :
    (logFilterMatchJsonl c line filter).isSome = true ↔
      jsonlIsObject c line = true ∧ Comparable c filter line := by
  by_cases object : jsonlIsObject c line = true
  · have known : ∃ members, parseObject c line = some members :=
      Option.isSome_iff_exists.mp object
    obtain ⟨members, parsed⟩ := known
    cases filter with
    | none => simp [logFilterMatchJsonl, object, Comparable]
    | some filter =>
        have text : (jsonlGetScalarText c line filter.key 1024).isSome = true ↔
            ScalarFits c 1024 (getItem members filter.key) := by
          rw [scalarText_isSome_iff]
          simp [parsed]
        have compared : Comparable c (some filter) line ↔
            filter.op = .greaterThan ∨ ScalarFits c 1024 (getItem members filter.key) := by
          simp [Comparable, parsed]
        rw [compared, logFilterMatchJsonl]
        cases op : filter.op with
        | greaterThan =>
            simp only [object, Bool.not_true, Bool.false_eq_true, if_false, true_or, and_true,
              iff_true]
            split <;> rfl
        | equals => simp [object, text]
        | notEquals => simp [object, text]
        | contains => simp [object, text]
  · have refused : logFilterMatchJsonl c line filter = none := by
      unfold logFilterMatchJsonl
      rw [if_pos (by simpa using object)]
    simp [refused, object]

private theorem jsonlLine_log (c : CJson) (filter : Option LogFilter) (line : Bytes) :
    (jsonlLine c filter line).2 =
      if (logFilterMatchJsonl c (trimLine line) filter).isSome then trimLine line ++ [lf]
      else [] := by
  rw [jsonlLine]
  cases logFilterMatchJsonl c (trimLine line) filter with
  | none => rfl
  | some matched => rfl

theorem full_log_selected (c : CJson) (filter : Option LogFilter) (stdin : Bytes) :
    (jsonlMode c filter stdin).2 =
      selected (fun line => trimLine line ++ [lf])
        (fun line => (logFilterMatchJsonl c (trimLine line) filter).isSome) (pieces lf stdin) := by
  simp only [jsonlMode, List.flatMap_map, selected, jsonlLine_log]

/-- The full log is the whole audit trail exactly if the filter can compare every object of the
input; without a filter it always is. -/
theorem full_log_complete_iff (c : CJson) (filter : Option LogFilter) (stdin : Bytes) :
    ((jsonlMode c filter stdin).2 = auditTrail c stdin ↔
        ∀ line ∈ pieces lf stdin, jsonlIsObject c (trimLine line) = true →
          Comparable c filter (trimLine line)) ∧
      (jsonlMode c none stdin).2 = auditTrail c stdin := by
  have iff_comparable (filter : Option LogFilter) :
      (jsonlMode c filter stdin).2 = auditTrail c stdin ↔
        ∀ line ∈ pieces lf stdin, jsonlIsObject c (trimLine line) = true →
          Comparable c filter (trimLine line) := by
    rw [full_log_selected, auditTrail, selected_eq_iff]
    · constructor
      · intro all line mem object
        exact ((match_isSome_iff c _ filter).mp (all line mem object)).2
      · intro all line mem object
        exact (match_isSome_iff c _ filter).mpr ⟨object, all line mem object⟩
    · intro line _ logged
      exact ((match_isSome_iff c _ filter).mp logged).1
    · simp
  refine ⟨iff_comparable filter, (iff_comparable none).mpr ?_⟩
  intro line _ _ f absent
  simp at absent

/-- An object without the field of the filter is not logged. -/
theorem object_without_field_not_logged :
    ∃ filter, logFilterParse (ascii "type=clip") = some filter ∧
      (jsonlMode (.ofDialect exactDialect) (some filter) (ascii "\x7b\"a\":\"b\"\x7d\n")).2 = [] ∧
      auditTrail (.ofDialect exactDialect) (ascii "\x7b\"a\":\"b\"\x7d\n") =
        ascii "\x7b\"a\":\"b\"\x7d\n" :=
  ⟨⟨ascii "type", ascii "clip", .equals⟩, by decide +kernel⟩

end StreamDataPipeline.LogParse.FullLog
