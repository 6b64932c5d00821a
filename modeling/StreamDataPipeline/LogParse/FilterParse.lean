/- Which filter expressions log_parse splits at the operator that was written. -/

import StreamDataPipeline.LogParse.FilterExpr

/-!
The operators are searched one kind after another over the whole expression, so an operator inside
the value is taken for the written one if its kind comes first.
-/

set_option autoImplicit false
set_option relaxedAutoImplicit false

namespace StreamDataPipeline.LogParse.FilterParse

open Foundations.ByteString FilterExpr

def operatorText : FilterOperator → Bytes
  | .equals => ascii "="
  | .notEquals => ascii "!="
  | .greaterThan => ascii ">"
  | .contains => ascii "~"

/-- No operator whose kind is searched earlier stands in the value. -/
def NoEarlierOperator (value : Bytes) : FilterOperator → Prop
  | .notEquals => True
  | .greaterThan => ¬ ascii "!=" <:+: value
  | .contains => ¬ ascii "!=" <:+: value ∧ 62 ∉ value
  | .equals => ¬ ascii "!=" <:+: value ∧ 62 ∉ value ∧ 126 ∉ value

theorem strstr_isSome_iff (needle s : Bytes) :
    (strstr needle s).isSome = true ↔ needle <:+: s := by
  induction s with
  | nil =>
      rw [strstr, List.infix_nil]
      split_ifs with empty <;> simp [empty]
  | cons x xs ih =>
      rw [strstr, List.infix_cons_iff]
      split_ifs with first
      · simp [first]
      · simp [first, ih]

section Skip

variable {key : Bytes}

theorem strstr_skip {c : UInt8} (absent : c ∉ key) (needle rest : Bytes) :
    strstr (c :: needle) (key ++ rest) =
      (strstr (c :: needle) rest).map fun parts => (key ++ parts.1, parts.2) := by
  induction key with
  | nil => simp
  | cons x xs ih =>
      obtain ⟨other, later⟩ := not_or.mp fun h => absent (List.mem_cons.mpr h)
      have here : ¬ c :: needle <+: x :: (xs ++ rest) := by
        intro first
        exact other (List.cons_prefix_cons.mp first).1
      rw [List.cons_append, strstr, if_neg here, ih later, Option.map_map]
      rfl

theorem strchr_skip {c : UInt8} (absent : c ∉ key) (rest : Bytes) :
    strchr c (key ++ rest) = (strchr c rest).map fun parts => (key ++ parts.1, parts.2) := by
  induction key with
  | nil => simp
  | cons x xs ih =>
      obtain ⟨other, later⟩ := not_or.mp fun h => absent (List.mem_cons.mpr h)
      rw [List.cons_append, strchr, if_neg (Ne.symm other), ih later, Option.map_map]
      rfl

theorem splitExpr_skip (plain : ∀ c ∈ ascii "!=>~", c ∉ key) (rest : Bytes) :
    splitExpr (key ++ rest) =
      (splitExpr rest).map fun split => (split.1, key ++ split.2.1, split.2.2) := by
  have notEquals : strstr (ascii "!=") (key ++ rest) =
      (strstr (ascii "!=") rest).map fun parts => (key ++ parts.1, parts.2) :=
    strstr_skip (plain 33 (by decide)) [61] rest
  rw [splitExpr, splitExpr, notEquals, strchr_skip (plain 62 (by decide)),
    strchr_skip (plain 126 (by decide)), strchr_skip (plain 61 (by decide))]
  cases strstr (ascii "!=") rest with
  | some parts => rfl
  | none =>
      cases strchr 62 rest with
      | some parts => rfl
      | none =>
          cases strchr 126 rest with
          | some parts => rfl
          | none => cases strchr 61 rest <;> rfl

end Skip

/-- An operator in front is the one that is found exactly if no earlier kind stands behind it. -/
theorem splitExpr_operator_iff (op : FilterOperator) (value : Bytes) :
    splitExpr (operatorText op ++ value) = some (op, [], value) ↔ NoEarlierOperator value op := by
  have itself (c : UInt8) : strchr c ([c] ++ value) = some ([], value) :=
    strchr_append List.not_mem_nil value
  have pair {c : UInt8} (other : c ≠ 33) : strstr (ascii "!=") ([c] ++ value) =
      (strstr (ascii "!=") value).map fun parts => ([c] ++ parts.1, parts.2) :=
    strstr_skip (c := 33) (by simpa using other.symm) [61] value
  have past {x c : UInt8} (other : c ≠ x) : strchr x ([c] ++ value) =
      (strchr x value).map fun parts => ([c] ++ parts.1, parts.2) :=
    strchr_skip (by simpa using other.symm) value
  cases op with
  | notEquals => exact iff_of_true rfl trivial
  | greaterThan =>
      have text : operatorText .greaterThan = [62] := rfl
      rw [NoEarlierOperator, ← strstr_isSome_iff, text, splitExpr, pair (by decide), itself]
      cases strstr (ascii "!=") value <;> simp
  | contains =>
      have text : operatorText .contains = [126] := rfl
      rw [NoEarlierOperator, ← strstr_isSome_iff, ← strchr_isSome_iff, text, splitExpr,
        pair (by decide), past (by decide), itself]
      cases strstr (ascii "!=") value with
      | some parts => simp
      | none => cases strchr 62 value <;> simp
  | equals =>
      have text : operatorText .equals = [61] := rfl
      rw [NoEarlierOperator, ← strstr_isSome_iff, ← strchr_isSome_iff, ← strchr_isSome_iff, text,
        splitExpr, pair (by decide), past (by decide), past (by decide), itself]
      cases strstr (ascii "!=") value with
      | some parts => simp
      | none =>
          cases strchr 62 value with
          | some parts => simp
          | none => cases strchr 126 value <;> simp

/-- An expression is parsed as it is written exactly if its value holds no operator of a kind
that is searched before the written one. -/
theorem parsed_as_written_iff {key value : Bytes} (op : FilterOperator) (keyPresent : key ≠ [])
    (plain : ∀ c ∈ ascii "!=>~", c ∉ key) (valuePresent : value ≠ []) :
    logFilterParse (key ++ operatorText op ++ value) = some ⟨key, value, op⟩ ↔
      NoEarlierOperator value op := by
  rw [← splitExpr_operator_iff, logFilterParse, List.append_assoc, splitExpr_skip plain]
  cases splitExpr (operatorText op ++ value) with
  | none => simp
  | some split =>
      obtain ⟨found, before, behind⟩ := split
      simp only [Option.map_some, Option.some.injEq, Prod.mk.injEq]
      constructor
      · intro parsed
        split_ifs at parsed
        obtain ⟨front, rfl, rfl⟩ : key ++ before = key ∧ behind = value ∧ found = op := by
          simpa using parsed
        exact ⟨rfl, List.append_right_eq_self.mp front, rfl⟩
      · rintro ⟨rfl, rfl, rfl⟩
        rw [List.append_nil, if_pos ⟨keyPresent, valuePresent⟩]

theorem parsed_as_written_clip :
    logFilterParse (ascii "type=clip") = some ⟨ascii "type", ascii "clip", .equals⟩ := by
  have keyPresent : ascii "type" ≠ [] := by decide
  have valuePresent : ascii "clip" ≠ [] := by decide
  exact (parsed_as_written_iff .equals keyPresent (by decide) valuePresent).mpr
    (by unfold NoEarlierOperator; decide)

/-- The value of an equality that holds a `>` loses its front to the key. -/
theorem value_with_operator :
    logFilterParse (ascii "msg" ++ operatorText .equals ++ ascii "a>b") =
      some ⟨ascii "msg=a", ascii "b", .greaterThan⟩ := by
  decide

end StreamDataPipeline.LogParse.FilterParse
