/- Printing a clip record (emit_clip in stream_merge.c). -/

import StreamDataPipeline.Lib.JsonlCodec
import StreamDataPipeline.Lib.Libpipeline
import StreamDataPipeline.StreamMerge.Fsm

set_option autoImplicit false
set_option relaxedAutoImplicit false

namespace StreamDataPipeline.StreamMerge.EmitClip

open Foundations.ByteString Foundations.Decimal Lib.JsonlCodec Lib.Libpipeline Events Fsm

/-- The loop of `sm_event_set_append_json` behind the first item. -/
def appendItems (c : CJson) (out : Bytes) : List Bytes → Option Bytes
  | [] => some out
  | item :: items => do
      let out ← jsonlWriteString c (out ++ ascii ",") item
      appendItems c out items

/-- `none` is the return value -1. -/
def smEventSetAppendJson (c : CJson) (set : SmEventSet) (out : Bytes) : Option Bytes := do
  let out := out ++ ascii "["
  let out ← match set.items with
    | [] => some out
    | item :: items => do
        let out ← jsonlWriteString c out item
        appendItems c out items
  pure (out ++ ascii "]")

/-- The start of a clip in whole seconds, truncated towards zero. -/
def tsSec (clip : SmClipRecord) : Int := clip.startTsMs.tdiv 1000

def boundaryModeName : SmBoundaryMode → Bytes
  | .continuousByteRange => ascii "continuous_byte_range"
  | .metadata => ascii "metadata_boundary"

/-- The first `printf`. Session id and path are printed as they are. -/
def clipHead (clip : SmClipRecord) (session path : Bytes) (complete : Bool) : Bytes :=
  ascii "\x7b\"type\":\"clip\"," ++
  (ascii "\"session_id\":\"" ++ session ++ ascii "\",") ++
  (ascii "\"ts\":" ++ decimal (tsSec clip) ++ ascii ",") ++
  (ascii "\"path\":\"" ++ path ++ ascii "\",") ++
  (ascii "\"offset\":" ++ decimal clip.startOffset ++ ascii ",") ++
  (ascii "\"length\":" ++ decimal clip.totalLength ++ ascii ",") ++
  (ascii "\"start_ts_ms\":" ++ decimal clip.startTsMs ++ ascii ",") ++
  (ascii "\"end_ts_ms\":" ++ decimal clip.endTsMs ++ ascii ",") ++
  (ascii "\"duration_ms\":" ++ decimal (clip.endTsMs - clip.startTsMs) ++ ascii ",") ++
  (ascii "\"boundary_mode\":\"" ++ boundaryModeName clip.boundaryMode ++ ascii "\",") ++
  (ascii "\"complete\":" ++ if complete then ascii "true" else ascii "false")

def artifactPath (src session : Bytes) : Option Bytes :=
  let filename := session ++ ascii ".bin"
  if filename.length < pathMax then lpBuildArtifactPath pathMax src filename else none

/-- The bytes printed; `none` is the return value -1. -/
def emitClip (c : CJson) (clip : SmClipRecord) (src session : Bytes) (complete : Bool) :
    Option Bytes :=
  if !clip.active then some []
  else do
    let path ← artifactPath src session
    let events ←
      if 0 < clip.events.count then
        (smEventSetAppendJson c clip.events []).map (ascii ",\"events\":" ++ ·)
      else some []
    pure (clipHead clip session path complete ++ events ++ ascii "\x7d\n")

end StreamDataPipeline.StreamMerge.EmitClip
