/- Filter expressions of log_parse (log_filter_expr.c). -/

import StreamDataPipeline.Lib.JsonlCodec

set_option autoImplicit false
set_option relaxedAutoImplicit false

namespace StreamDataPipeline.LogParse.FilterExpr

open Foundations.ByteString Foundations.Decimal Lib.JsonlCodec

inductive FilterOperator
  | equals | notEquals | greaterThan | contains
  deriving DecidableEq

structure LogFilter where
  key : Bytes
  value : Bytes
  op : FilterOperator
  deriving DecidableEq

/-- `strstr(s, needle)`: what stands before and after the first occurrence. -/
def strstr (needle : Bytes) : Bytes → Option (Bytes × Bytes)
  | [] => if needle = [] then some ([], []) else none
  | x :: xs =>
      if needle <+: x :: xs then some ([], (x :: xs).drop needle.length)
      else (strstr needle xs).map fun parts => (x :: parts.1, parts.2)

/-- `strtoll` on a whole text, with the range check of `errno`. -/
def parseI64 (s : Bytes) : Option Int :=
  match scanInteger s with
  | some (v, []) => if longMin ≤ v ∧ v ≤ longMax then some v else none
  | _ => none

/-- Where an expression is split: at `!=`, else at the first `>`, `~` or `=`, in this order. -/
def splitExpr (expr : Bytes) : Option (FilterOperator × Bytes × Bytes) :=
  match strstr (ascii "!=") expr with
  | some parts => some (.notEquals, parts)
  | none => match strchr 62 expr with
    | some parts => some (.greaterThan, parts)
    | none => match strchr 126 expr with
      | some parts => some (.contains, parts)
      | none => (strchr 61 expr).map fun parts => (.equals, parts)

/-- `none` is the return value -1. -/
def logFilterParse (expr : Bytes) : Option LogFilter :=
  match splitExpr expr with
  | some (op, key, value) => if key ≠ [] ∧ value ≠ [] then some ⟨key, value, op⟩ else none
  | none => none

/-- `none` is the return value -1; without a filter every object matches. -/
def logFilterMatchJsonl (c : CJson) (line : Bytes) (filter : Option LogFilter) : Option Bool :=
  if !jsonlIsObject c line then none
  else match filter with
  | none => some true
  | some filter => match filter.op with
    | .greaterThan => match jsonlGetInt64 c line filter.key, parseI64 filter.value with
      | some lhs, some rhs => some (rhs < lhs)
      | _, _ => some false
    | .equals => (jsonlGetScalarText c line filter.key 1024).map fun value =>
        value == filter.value
    | .notEquals => (jsonlGetScalarText c line filter.key 1024).map fun value =>
        value != filter.value
    | .contains => (jsonlGetScalarText c line filter.key 1024).map fun value =>
        (strstr filter.value value).isSome

end StreamDataPipeline.LogParse.FilterExpr
