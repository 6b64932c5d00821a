/- stream_merge_main and an ingestor that work on one session directory. -/

import StreamDataPipeline.Foundations.Schedule
import StreamDataPipeline.Lib.Libpipeline

/-!
The two processes meet in three files and in the event queue of the directory. The clips
are left out here: what they can do to the run is to end it with status 1, and every step
that prints one may do so. The other answers of the system are a choice of the schedule.
-/

set_option autoImplicit false
set_option relaxedAutoImplicit false

namespace StreamDataPipeline.StreamMerge.Session

open Foundations Foundations.ByteString Lib.Libpipeline

/-- How far the ingestor is: it creates the metadata file, appends rows and closes it,
creates the sentinel and closes that. `writing rest` still has to append `rest`. -/
inductive Ingest
  | before
  | writing (rest : Bytes)
  | closed
  | marking
  | finished
  deriving DecidableEq

/-- The three calls of `drain_meta`; the one in the main loop comes before the look at the
directory queue, which `poll` found ready or not. -/
inductive Drain
  | first
  | woken (dirReady : Bool)
  | final
  deriving DecidableEq

/-- Where stream_merge_main is. -/
inductive Pc
  | watchDir
  | testSentinel
  | openMeta
  | waitHead
  | waitPoll
  | waitConsume
  | waitOpen
  | waitEnd
  | watchFile
  | drainRead (call : Drain)
  | drainLines (call : Drain)
  | mainHead
  | mainPoll
  | mainFile (fileReady dirReady : Bool)
  | mainDir (dirReady : Bool)
  | mainConsume
  | mainSentinel
  | mainIdle
  | flush
  | returned (status : Nat)
  deriving DecidableEq

/-- The two watches are `none` before they are installed. The one of the directory holds
the names of its queued events, the one of the metadata file whether it has any. -/
structure State where
  ingest : Ingest
  metaFile : Option Bytes
  sentinel : Bool
  dirWatch : Option (List Bytes)
  fileWatch : Option Bool
  pc : Pc
  sawSentinel : Bool
  metaFd : Option Nat
  metaBuf : Bytes
  parsed : List Bytes
  deriving DecidableEq

def start : State where
  ingest := .before
  metaFile := none
  sentinel := false
  dirWatch := none
  fileWatch := none
  pc := .watchDir
  sawSentinel := false
  metaFd := none
  metaBuf := []
  parsed := []

def metaName (session : Bytes) : Bytes := session ++ ascii ".meta.jsonl"

def rowsText (rows : List Bytes) : Bytes := rows.flatMap (· ++ [lf])

/-- A writer closed a file of the directory. -/
def notifyDir (s : State) (name : Bytes) : Option (List Bytes) := s.dirWatch.map (· ++ [name])

/-- One step of the ingestor; while it writes, it appends up to `n + 1` bytes. -/
def ingestStep (session : Bytes) (rows : List Bytes) (s : State) (n : Nat) : Option State :=
  match s.ingest with
  | .before => some { s with ingest := .writing (rowsText rows), metaFile := some [] }
  | .writing [] =>
      some { s with
        ingest := .closed
        dirWatch := notifyDir s (metaName session)
        fileWatch := s.fileWatch.map fun _ => true }
  | .writing (b :: rest) =>
      some { s with
        ingest := .writing (rest.drop n)
        metaFile := s.metaFile.map (· ++ b :: rest.take n)
        fileWatch := s.fileWatch.map fun _ => true }
  | .closed => some { s with ingest := .marking, sentinel := true }
  | .marking =>
      some { s with ingest := .finished, dirWatch := notifyDir s pipelineSentinelName }
  | .finished => none

/-- How a call ends: as it should, or with its other outcome (a failure, an interrupt, a
deadline that has passed). -/
inductive Answer
  | expected
  | other
  deriving DecidableEq

/-- One `read` of `lp_consume_inotify_events` that finds events. -/
def consume (s : State) (events : List Bytes) : State :=
  { s with
    dirWatch := some []
    sawSentinel := s.sawSentinel || events.any lpIsCompletedSession }

def afterDrain : Drain → Pc
  | .first => .mainHead
  | .woken dirReady => .mainDir dirReady
  | .final => .flush

/-- One step of stream_merge_main. -/
def mergeStep (s : State) (answer : Answer) : Option State :=
  match s.pc with
  | .watchDir => match answer with
    | .expected => some { s with dirWatch := some [], pc := .testSentinel }
    | .other => some { s with pc := .returned 1 }
  | .testSentinel => some { s with sawSentinel := s.sentinel, pc := .openMeta }
  | .openMeta => match s.metaFile with
    | some _ => some { s with metaFd := some 0, pc := .waitEnd }
    | none => some { s with pc := .waitHead }
  | .waitHead =>
      if s.metaFd = none ∧ s.sawSentinel = false then match answer with
        | .expected => some { s with pc := .waitPoll }
        | .other => some { s with pc := .returned 1 }
      else some { s with pc := .waitEnd }
  | .waitPoll => match answer with
    | .expected =>
        some { s with pc := if s.dirWatch.getD [] = [] then .waitOpen else .waitConsume }
    | .other => some { s with pc := .waitHead }
  | .waitConsume => match s.dirWatch.getD [] with
    | [] => some { s with pc := .waitOpen }
    | event :: events => some (consume s (event :: events))
  | .waitOpen =>
      some { s with
        metaFd := if s.sawSentinel then s.metaFd else s.metaFile.map fun _ => 0
        pc := .waitHead }
  | .waitEnd => match s.metaFd with
    | none => some { s with pc := .returned 0 }
    | some _ => some { s with pc := .watchFile }
  | .watchFile => match answer with
    | .expected => some { s with fileWatch := some false, pc := .drainRead .first }
    | .other => some { s with pc := .returned 1 }
  | .drainRead call => match s.metaFd, s.metaFile with
    | some offset, some content =>
        let chunk := (content.drop offset).take 4096
        if chunk = [] then some { s with pc := .drainLines call }
        else some { s with metaFd := some (offset + chunk.length), metaBuf := s.metaBuf ++ chunk }
    | _, _ => some { s with pc := .returned 1 }
  -- `memchr` looks at all bytes of the buffer, as the search in a list does
  | .drainLines call => match strchr lf s.metaBuf with
    | none => some { s with pc := afterDrain call }
    | some (line, rest) =>
        if line = [] then some { s with metaBuf := rest }
        else
          let s := { s with metaBuf := rest, parsed := s.parsed ++ [line] }
          match answer with
          | .expected => some s
          | .other => some { s with pc := .returned 1 }
  | .mainHead => some { s with pc := if s.sawSentinel then .drainRead .final else .mainPoll }
  | .mainPoll => match answer with
    | .expected =>
        some { s with pc := .mainFile (s.fileWatch.getD false) (!(s.dirWatch.getD []).isEmpty) }
    | .other => some { s with pc := .mainHead }
  | .mainFile fileReady dirReady =>
      if fileReady then
        some { s with fileWatch := some false, pc := .drainRead (.woken dirReady) }
      else some { s with pc := .mainDir dirReady }
  | .mainDir dirReady => some { s with pc := if dirReady then .mainConsume else .mainSentinel }
  | .mainConsume => match s.dirWatch.getD [] with
    | [] => some { s with pc := .mainSentinel }
    | event :: events => some (consume s (event :: events))
  | .mainSentinel =>
      some { s with sawSentinel := s.sawSentinel || s.sentinel, pc := .mainIdle }
  | .mainIdle => match answer with
    | .expected => some { s with pc := .mainHead }
    | .other => some { s with pc := .returned 1 }
  | .flush => match answer with
    | .expected => some { s with pc := .returned 0 }
    | .other => some { s with pc := .returned 1 }
  | .returned _ => none

/-- A step of one of the two processes. -/
inductive Move
  | ingest (n : Nat)
  | merge (answer : Answer)
  deriving DecidableEq

def step (session : Bytes) (rows : List Bytes) (s : State) : Move → Option State
  | .ingest n => ingestStep session rows s n
  | .merge answer => mergeStep s answer

/-- The wait for the metadata file does not take the event of the sentinel from the queue. -/
def WaitsForMeta (s : State) : Move → Prop
  | .ingest _ => True
  | .merge _ => s.pc = .waitConsume →
      ∀ event ∈ s.dirWatch.getD [], lpIsCompletedSession event = false

instance (s : State) : (move : Move) → Decidable (WaitsForMeta s move)
  | .ingest _ => isTrue trivial
  | .merge _ => inferInstanceAs (Decidable (_ → _))

/-- A run that returns 0 has passed on every row, each once and in order. -/
def Lossless (rows : List Bytes) (s : State) : Prop := s.pc = .returned 0 → s.parsed = rows

instance (rows : List Bytes) (s : State) : Decidable (Lossless rows s) :=
  inferInstanceAs (Decidable (_ → _))

end StreamDataPipeline.StreamMerge.Session
