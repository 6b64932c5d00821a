/- The pass-through loop of log_parse over JSON Lines (log_parse.c). -/

import StreamDataPipeline.Foundations.Lines
import StreamDataPipeline.LogParse.FilterExpr

set_option autoImplicit false
set_option relaxedAutoImplicit false

namespace StreamDataPipeline.LogParse.JsonlMode

open Foundations.ByteString Foundations.Decimal Foundations.Lines Lib.JsonlCodec FilterExpr

/-- The C string in a line buffer without the blanks around it. -/
def trimLine (line : Bytes) : Bytes :=
  (((cstr line).dropWhile isSpace).reverse.dropWhile isSpace).reverse

theorem cstr_object_line {body : Bytes} (nulFree : nul ∉ 123 :: (body ++ [125])) :
    cstr (123 :: (body ++ [125]) ++ [lf]) = 123 :: (body ++ [125]) ++ [lf] := by
  apply cstr_of_nul_free
  rw [List.mem_append, not_or]
  exact ⟨nulFree, by decide⟩

theorem trimLine_object {body : Bytes} (nulFree : nul ∉ 123 :: (body ++ [125])) :
    trimLine (123 :: (body ++ [125]) ++ [lf]) = 123 :: (body ++ [125]) := by
  have open123 : isSpace 123 = false := rfl
  have close125 : isSpace 125 = false := rfl
  have space : isSpace lf = true := rfl
  rw [trimLine, cstr_object_line nulFree]
  simp [open123, close125, space]

/-- What one line adds to standard output, and to the full log where one is kept. -/
def jsonlLine (c : CJson) (filter : Option LogFilter) (line : Bytes) : Bytes × Bytes :=
  let line := trimLine line
  match logFilterMatchJsonl c line filter with
  | none => ([], [])
  | some matched => (if matched then line ++ [lf] else [], line ++ [lf])

/-- Standard output and the full log of a run without aggregation and count. -/
def jsonlMode (c : CJson) (filter : Option LogFilter) (stdin : Bytes) : Bytes × Bytes :=
  let written := (pieces lf stdin).map (jsonlLine c filter)
  (written.flatMap Prod.fst, written.flatMap Prod.snd)

end StreamDataPipeline.LogParse.JsonlMode
