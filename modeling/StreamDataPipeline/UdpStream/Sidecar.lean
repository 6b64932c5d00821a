/- The row that the UDP server writes for a payload, and what stream_merge reads of it. -/

import Mathlib.Data.List.Forall2
import StreamDataPipeline.StreamMerge.DrainMeta

/-!
A row is the text of one object without blanks. Its numbers are as large as they come; the
reader takes those that a double holds exactly.
-/

set_option autoImplicit false
set_option relaxedAutoImplicit false

namespace StreamDataPipeline.UdpStream.Sidecar

open Foundations.ByteString Foundations.Decimal Foundations.Json Foundations.JsonText
open Lib.JsonlCodec StreamMerge.Fsm StreamMerge.FsmRun StreamMerge.Events StreamMerge.Reader
  StreamMerge.DrainMeta

inductive MediaFormat
  | raw | mpegts
  deriving DecidableEq

def MediaFormat.name : MediaFormat → Bytes
  | .raw => ascii "raw"
  | .mpegts => ascii "mpegts"

structure SidecarRow where
  seq : Int
  offset : Nat
  length : Nat
  tsMs : Int
  mediaFormat : MediaFormat
  segmentAligned : Bool
  deriving DecidableEq

/-- The members of the record, in the order in which they are set. -/
def rowMembers (row : SidecarRow) : List (Bytes × Bytes) :=
  [(ascii "kind", quoted (ascii "data")),
    (ascii "sequence", decimal row.seq),
    (ascii "offset", decimal row.offset),
    (ascii "length", decimal row.length),
    (ascii "ts_ms", decimal row.tsMs),
    (ascii "format", quoted row.mediaFormat.name)] ++
  if row.segmentAligned then [(ascii "segment_aligned", ascii "true")] else []

/-- `json.dumps(record, separators=(",", ":"))` -/
def rowText (row : SidecarRow) : Bytes := objectText (rowMembers row)

/-- The members as they are read back. -/
def rowEntries (d : Dialect) (row : SidecarRow) : List (Bytes × JsonValue) :=
  [(ascii "kind", .string (ascii "data")),
    (ascii "sequence", .number (d.round row.seq)),
    (ascii "offset", .number (d.round (row.offset : Int))),
    (ascii "length", .number (d.round (row.length : Int))),
    (ascii "ts_ms", .number (d.round row.tsMs)),
    (ascii "format", .string row.mediaFormat.name)] ++
  if row.segmentAligned then [(ascii "segment_aligned", .bool true)] else []

variable {c : CJson} {d : Dialect}

private theorem mediaFormat_visible (format : MediaFormat) :
    ∀ b ∈ format.name, b ≠ quote ∧ b ≠ backslash ∧ 32 ≤ b := by
  cases format <;> decide

private theorem rowMembers_read (row : SidecarRow) :
    List.Forall₂ (MemberReads d) (rowMembers row) (rowEntries d row) := by
  have named {name text : Bytes} {v : JsonValue}
      (visible : ∀ b ∈ name, b ≠ quote ∧ b ≠ backslash ∧ 32 ≤ b) (read : Reads d text v) :
      MemberReads d (name, text) (name, v) := ⟨rfl, plain_of_visible visible, read⟩
  have front : List.Forall₂ (MemberReads d)
      [(ascii "kind", quoted (ascii "data")), (ascii "sequence", decimal row.seq),
        (ascii "offset", decimal row.offset), (ascii "length", decimal row.length),
        (ascii "ts_ms", decimal row.tsMs), (ascii "format", quoted row.mediaFormat.name)]
      [(ascii "kind", .string (ascii "data")), (ascii "sequence", .number (d.round row.seq)),
        (ascii "offset", .number (d.round (row.offset : Int))),
        (ascii "length", .number (d.round (row.length : Int))),
        (ascii "ts_ms", .number (d.round row.tsMs)),
        (ascii "format", .string row.mediaFormat.name)] := by
    apply List.Forall₂.cons (named (by decide) (reads_quoted (plain_of_visible (by decide))))
    apply List.Forall₂.cons (named (by decide) (reads_decimal row.seq))
    apply List.Forall₂.cons (named (by decide) (reads_decimal row.offset))
    apply List.Forall₂.cons (named (by decide) (reads_decimal row.length))
    apply List.Forall₂.cons (named (by decide) (reads_decimal row.tsMs))
    exact .cons (named (by decide)
      (reads_quoted (plain_of_visible (mediaFormat_visible row.mediaFormat)))) .nil
  unfold rowMembers rowEntries
  cases row.segmentAligned with
  | false => simpa using front
  | true =>
      exact List.rel_append front (.cons (named (by decide) (reads_bool true)) .nil)

private theorem rowText_object (correct : c.IsCorrect d) (row : SidecarRow) :
    parseObject c (rowText row) = some (rowEntries d row) := by
  simp [parseObject, correct.parses, rowText, (reads_object (rowMembers_read row)).parseText]

theorem rowText_visible (row : SidecarRow) : ∀ b ∈ rowText row, 32 ≤ b := by
  have numeral (v : Int) : ∀ b ∈ decimal v, 32 ≤ b := by
    intro b mem
    rcases decimal_chars v b mem with digit | rfl
    · simp only [isDigit, Bool.and_eq_true, decide_eq_true_eq, UInt8.le_iff_toNat_le] at digit
      exact UInt8.le_iff_toNat_le.mpr (le_trans (by decide) digit.1)
    · decide
  apply objectText_bytes fun _ ge => ge
  simp only [rowMembers, List.forall_mem_append, List.forall_mem_cons]
  refine ⟨⟨?_, ?_, ?_, ?_, ?_, ?_, by simp⟩, ?_⟩
  · exact ⟨by decide, quoted_bytes (fun _ ge => ge) (by decide)⟩
  · exact ⟨by decide, numeral row.seq⟩
  · exact ⟨by decide, numeral row.offset⟩
  · exact ⟨by decide, numeral row.length⟩
  · exact ⟨by decide, numeral row.tsMs⟩
  · exact ⟨by decide, quoted_bytes (fun _ ge => ge) fun b mem =>
      (mediaFormat_visible row.mediaFormat b mem).2.2⟩
  · cases row.segmentAligned <;> decide

/-- The four numbers are ones that a double holds exactly, and the sequence is not negative. -/
structure Readable (row : SidecarRow) : Prop where
  seq : 0 ≤ row.seq ∧ row.seq ≤ 2 ^ 53 - 1
  offset : row.offset ≤ 2 ^ 53 - 1
  length : row.length ≤ 2 ^ 53 - 1
  tsMs : |row.tsMs| ≤ 2 ^ 53 - 1

instance (row : SidecarRow) : Decidable (Readable row) :=
  decidable_of_iff ((0 ≤ row.seq ∧ row.seq ≤ 2 ^ 53 - 1) ∧ row.offset ≤ 2 ^ 53 - 1 ∧
      row.length ≤ 2 ^ 53 - 1 ∧ |row.tsMs| ≤ 2 ^ 53 - 1)
    ⟨fun h => ⟨h.1, h.2.1, h.2.2.1, h.2.2.2⟩, fun h => ⟨h.seq, h.offset, h.length, h.tsMs⟩⟩

private theorem round_le_iff (d : Dialect) (n : Int) :
    d.round n ≤ jsonlMaxSafeInteger ↔ n ≤ 2 ^ 53 - 1 := by
  have limit : jsonlMaxSafeInteger = ((2 ^ 53 - 1 : Int) : ℚ) := by
    norm_num [jsonlMaxSafeInteger]
  constructor
  · intro small
    by_contra large
    have above : ((2 ^ 53 : Int) : ℚ) ≤ n := by exact_mod_cast (by omega : (2 ^ 53 : Int) ≤ n)
    have grows := d.round_mono above
    rw [d.round_integer (2 ^ 53) (by norm_num)] at grows
    rw [limit] at small
    have absurd : ((2 ^ 53 : Int) : ℚ) ≤ ((2 ^ 53 - 1 : Int) : ℚ) := grows.trans small
    norm_num at absurd
  · intro small
    have below : (n : ℚ) ≤ ((2 ^ 53 - 1 : Int) : ℚ) := by exact_mod_cast small
    have shrinks := d.round_mono below
    rwa [d.round_integer (2 ^ 53 - 1) (by norm_num), ← limit] at shrinks

private theorem round_ge_iff (d : Dialect) {n low : Int} (bound : |low| ≤ 2 ^ 53 - 1) :
    (low : ℚ) ≤ d.round n ↔ low ≤ n := by
  rw [abs_le] at bound
  constructor
  · intro large
    by_contra small
    have below : (n : ℚ) ≤ ((low - 1 : Int) : ℚ) := by exact_mod_cast (by omega : n ≤ low - 1)
    have shrinks := d.round_mono below
    rw [d.round_integer (low - 1) (abs_le.mpr (by omega))] at shrinks
    have absurd : (low : ℚ) ≤ ((low - 1 : Int) : ℚ) := large.trans shrinks
    have nothing : low ≤ low - 1 := by exact_mod_cast absurd
    omega
  · intro above
    have grows := d.round_mono (show (low : ℚ) ≤ n by exact_mod_cast above)
    rwa [d.round_integer low (abs_le.mpr (by omega))] at grows

section Numbers

variable {line key : Bytes} {members : List (Bytes × JsonValue)} {n : Int}
  (object : parseObject c line = some members)
  (item : getItem members key = some (.number (d.round n)))

include object item

theorem jsonlGetUint64_round :
    jsonlGetUint64 c line key = if 0 ≤ n ∧ n ≤ 2 ^ 53 - 1 then some n.toNat else none := by
  have low : d.round n < 0 ↔ ¬ 0 ≤ n := by
    rw [← not_le, ← Int.cast_zero, round_ge_iff d (by norm_num)]
  have high : jsonlMaxSafeInteger < d.round n ↔ ¬ n ≤ 2 ^ 53 - 1 := by
    rw [← not_le, round_le_iff]
  simp only [jsonlGetUint64, object, item, Option.bind_eq_bind, Option.bind_some, low, high,
    ← not_and_or, ite_not]
  by_cases safe : 0 ≤ n ∧ n ≤ 2 ^ 53 - 1
  · rw [if_pos safe, if_pos safe, d.round_integer n (abs_le.mpr (by omega))]
    simp [Rat.isInt]
  · rw [if_neg safe, if_neg safe]

theorem jsonlGetInt64_round :
    jsonlGetInt64 c line key = if |n| ≤ 2 ^ 53 - 1 then some n else none := by
  have low : d.round n < -jsonlMaxSafeInteger ↔ ¬ -(2 ^ 53 - 1) ≤ n := by
    have limit : -jsonlMaxSafeInteger = ((-(2 ^ 53 - 1) : Int) : ℚ) := by
      norm_num [jsonlMaxSafeInteger]
    rw [← not_le, limit, round_ge_iff d (by norm_num)]
  have high : jsonlMaxSafeInteger < d.round n ↔ ¬ n ≤ 2 ^ 53 - 1 := by
    rw [← not_le, round_le_iff]
  simp only [jsonlGetInt64, object, item, Option.bind_eq_bind, Option.bind_some, low, high,
    ← not_and_or, ite_not, ← abs_le]
  by_cases safe : |n| ≤ 2 ^ 53 - 1
  · rw [if_pos safe, if_pos safe, d.round_integer n (by omega)]
    simp [Rat.isInt]
  · rw [if_neg safe, if_neg safe]

end Numbers

/-- The record of a row that can be read. -/
def rowRecord (row : SidecarRow) : SmMetaRecord :=
  dataRecord row.seq.toNat row.offset row.length row.tsMs

theorem smReaderParseLine_rowText (correct : c.IsCorrect d) (row : SidecarRow) :
    smReaderParseLine c (rowText row) = if Readable row then some (rowRecord row) else none := by
  have object := rowText_object correct row
  have kind : jsonlGetString c (rowText row) (ascii "kind") 16 = some (ascii "data") := by
    rw [jsonlGetString, object]
    rfl
  have seq : jsonlGetUint64 c (rowText row) (ascii "sequence") = if _ then _ else none :=
    jsonlGetUint64_round object (n := row.seq) rfl
  have offset : jsonlGetUint64 c (rowText row) (ascii "offset") = if _ then _ else none :=
    jsonlGetUint64_round object (n := row.offset) rfl
  have length : jsonlGetUint64 c (rowText row) (ascii "length") = if _ then _ else none :=
    jsonlGetUint64_round object (n := row.length) rfl
  have tsMs : jsonlGetInt64 c (rowText row) (ascii "ts_ms") = if _ then _ else none :=
    jsonlGetInt64_round object (n := row.tsMs) rfl
  have plain : jsonlGetBool c (rowText row) (ascii "continuous") = none := by
    rw [jsonlGetBool, object]
    unfold rowEntries
    cases row.segmentAligned <;> rfl
  have quiet : parseEvents c (rowText row) smEventSetReset = some smEventSetReset := by
    rw [parseEvents, object]
    unfold rowEntries
    cases row.segmentAligned <;> rfl
  have stream : parseContinuous c (rowText row) = some (false, 0, 0) := by
    rw [parseContinuous, plain]
  simp only [smReaderParseLine, kind, seq, offset, length, tsMs, stream, quiet,
    Option.bind_eq_bind, Option.bind_some]
  by_cases readable : Readable row
  · rw [if_pos readable, if_pos readable.seq, if_pos (by have := readable.offset; omega),
      if_pos (by have := readable.length; omega), if_pos readable.tsMs]
    rfl
  · rw [if_neg readable]
    split_ifs with seqSafe offsetSafe lengthSafe tsSafe <;> try rfl
    exact absurd ⟨seqSafe, by omega, by omega, tsSafe⟩ readable

theorem dataRecordOf_rowText (correct : c.IsCorrect d) (row : SidecarRow) :
    dataRecordOf c (cstr (rowText row)) = if Readable row then some (rowRecord row) else none := by
  have nulFree : nul ∉ rowText row := fun mem => absurd (rowText_visible row nul mem) (by decide)
  rw [cstr_of_nul_free nulFree, dataRecordOf, smReaderParseLine_rowText correct]
  by_cases readable : Readable row
  · simp only [if_pos readable]
    rfl
  · simp only [if_neg readable]

end StreamDataPipeline.UdpStream.Sidecar
