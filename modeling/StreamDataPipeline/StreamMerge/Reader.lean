/- Reading one line of the metadata sidecar (sm_reader). -/

import StreamDataPipeline.Lib.JsonlCodec
import StreamDataPipeline.StreamMerge.FsmRun

set_option autoImplicit false
set_option relaxedAutoImplicit false

namespace StreamDataPipeline.StreamMerge.Reader

open Foundations.ByteString Foundations.Json Lib.JsonlCodec Events Fsm FsmRun

/-- The loop over the items of the array: every one must be a tag that can be added. -/
def addItems (events : SmEventSet) : List JsonValue → Option SmEventSet
  | [] => some events
  | .string tag :: items => do addItems (← smEventSetAddTag events (cstr tag)) items
  | _ :: _ => none

/-- A line without events has the empty set. -/
def parseEvents (c : CJson) (line : Bytes) (events : SmEventSet) : Option SmEventSet := do
  let members ← parseObject c line
  match getItem members (ascii "events") with
  | none => some events
  | some (.array items) => addItems events items
  | some _ => none

/-- The three fields of a continuous stream, zero where the record is not of one. -/
def parseContinuous (c : CJson) (line : Bytes) : Option (Bool × Nat × Nat) :=
  match jsonlGetBool c line (ascii "continuous") with
  | some true => do
      let byteRate ← jsonlGetUint64 c line (ascii "byte_rate")
      if byteRate = 0 then none
      else some (true, byteRate, (jsonlGetUint64 c line (ascii "frame_align")).getD 1)
  | _ => some (false, 0, 0)

/-- `none` is the return value -1. -/
def smReaderParseLine (c : CJson) (line : Bytes) : Option SmMetaRecord := do
  let kind ← jsonlGetString c line (ascii "kind") 16
  let seq ← jsonlGetUint64 c line (ascii "sequence")
  let offset ← jsonlGetUint64 c line (ascii "offset")
  let length ← jsonlGetUint64 c line (ascii "length")
  let tsMs ← jsonlGetInt64 c line (ascii "ts_ms")
  let (continuous, byteRate, frameAlign) ← parseContinuous c line
  let events ← parseEvents c line smEventSetReset
  some {
    kind := kind
    seq := seq
    offset := offset
    length := length
    tsMs := tsMs
    continuous := continuous
    byteRate := byteRate
    frameAlign := frameAlign
    events := events
    valid := true }

/-- A record that is read is valid, and its byte fields are safe integers. -/
theorem smReaderParseLine_range {c : CJson} {line : Bytes} {rec : SmMetaRecord}
    (read : smReaderParseLine c line = some rec) : rec.valid = true ∧ InReaderRange rec := by
  obtain ⟨kind, -, read⟩ := Option.bind_eq_some_iff.mp read
  obtain ⟨seq, gotSeq, read⟩ := Option.bind_eq_some_iff.mp read
  obtain ⟨offset, gotOffset, read⟩ := Option.bind_eq_some_iff.mp read
  obtain ⟨length, gotLength, read⟩ := Option.bind_eq_some_iff.mp read
  obtain ⟨tsMs, -, read⟩ := Option.bind_eq_some_iff.mp read
  obtain ⟨stream, -, read⟩ := Option.bind_eq_some_iff.mp read
  obtain ⟨events, -, read⟩ := Option.bind_eq_some_iff.mp read
  cases read
  exact ⟨rfl, jsonlGetUint64_le gotSeq, jsonlGetUint64_le gotOffset, jsonlGetUint64_le gotLength⟩

end StreamDataPipeline.StreamMerge.Reader
