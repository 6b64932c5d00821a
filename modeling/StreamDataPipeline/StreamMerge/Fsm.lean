/- The gap-aware clip state machine (sm_fsm). -/

import StreamDataPipeline.Foundations.Word
import StreamDataPipeline.StreamMerge.Events

/-!
Unsigned fields are natural numbers with the 64-bit wrap written out. Signed
64-bit fields are integers: a C run in which one of them overflows has no defined
meaning, so every defined run is a run of this model.
-/

set_option autoImplicit false
set_option relaxedAutoImplicit false

namespace StreamDataPipeline.StreamMerge.Fsm

open Foundations.Word Foundations.ByteString Events

/-- One normalized metadata row. -/
structure SmMetaRecord where
  kind : Bytes
  seq : Nat
  offset : Nat
  length : Nat
  tsMs : Int
  continuous : Bool
  byteRate : Nat
  frameAlign : Nat
  events : SmEventSet
  valid : Bool
  deriving DecidableEq

inductive SmBoundaryMode
  | metadata | continuousByteRange
  deriving DecidableEq

/-- A clip byte-range snapshot. -/
structure SmClipRecord where
  active : Bool
  startTsMs : Int
  endTsMs : Int
  startOffset : Nat
  totalLength : Nat
  boundaryMode : SmBoundaryMode
  events : SmEventSet
  deriving DecidableEq

structure SmFsm where
  active : Bool
  startTsMs : Int
  endTsMs : Int
  startOffset : Nat
  totalLength : Nat
  expectedSeq : Nat
  expectedOffset : Nat
  lastChunkWallMs : Int
  continuous : Bool
  byteRate : Nat
  frameAlign : Nat
  boundaryMode : SmBoundaryMode
  events : SmEventSet
  deriving DecidableEq

/-- The returned action. The output record is written exactly when a clip is emitted,
so it is carried by the two emitting actions. -/
inductive SmFsmAction
  | none
  | rejectLate
  | emitComplete (clip : SmClipRecord)
  | emitPartial (clip : SmClipRecord)
  deriving DecidableEq

/-- The exact quotient, as a whole number of frames. The source divides in `long double`, which
gives this quotient as long as `clip_ms * byte_rate` is below 2^64 (WindowTarget). -/
def alignedTargetBytes (clipMs : Int) (byteRate frameAlign : Nat) : Nat :=
  if clipMs ≤ 0 ∨ byteRate = 0 then 0
  else
    let target := clipMs.toNat * byteRate / 1000
    if 1 < frameAlign then target - target % frameAlign else target

def snapshotClip (fsm : SmFsm) : SmClipRecord where
  active := fsm.active
  startTsMs := fsm.startTsMs
  endTsMs := fsm.endTsMs
  startOffset := fsm.startOffset
  totalLength := fsm.totalLength
  boundaryMode := fsm.boundaryMode
  events := fsm.events

def snapshotContinuousClip (fsm : SmFsm) (clipMs : Int) (targetBytes : Nat) : SmClipRecord :=
  { snapshotClip fsm with
    endTsMs := fsm.startTsMs + clipMs
    totalLength := targetBytes
    boundaryMode := .continuousByteRange }

/-- A frame alignment of 0 is read as 1. -/
def effectiveAlign (frameAlign : Nat) : Nat := if frameAlign = 0 then 1 else frameAlign

/-- Every field of the state machine is assigned, so nothing of the old state is kept. -/
def startClip (rec : SmMetaRecord) (nowMs : Int) : SmFsm where
  active := true
  startTsMs := rec.tsMs
  endTsMs := rec.tsMs
  startOffset := rec.offset
  totalLength := rec.length
  expectedSeq := u64Add rec.seq 1
  expectedOffset := u64Add rec.offset rec.length
  lastChunkWallMs := nowMs
  continuous := rec.continuous
  byteRate := rec.byteRate
  frameAlign := effectiveAlign rec.frameAlign
  boundaryMode := .metadata
  events := rec.events

def appendRecord (fsm : SmFsm) (rec : SmMetaRecord) (nowMs : Int) : SmFsm :=
  { fsm with
    endTsMs := rec.tsMs
    totalLength := u64Add fsm.totalLength rec.length
    expectedSeq := u64Add rec.seq 1
    expectedOffset := u64Add rec.offset rec.length
    lastChunkWallMs := nowMs
    boundaryMode := .metadata
    events := (smEventSetAddAll fsm.events rec.events).1 }

def continuousCompatible (fsm : SmFsm) (rec : SmMetaRecord) : Bool :=
  fsm.continuous && rec.continuous && fsm.byteRate == rec.byteRate &&
    fsm.frameAlign == effectiveAlign rec.frameAlign

/-- The state after one full continuous window has been cut off the front. -/
def cutContinuousWindow (fsm : SmFsm) (clipMs : Int) (targetBytes : Nat) : SmFsm :=
  { fsm with
    startOffset := u64Add fsm.startOffset targetBytes
    totalLength := u64Sub fsm.totalLength targetBytes
    startTsMs := fsm.startTsMs + clipMs
    endTsMs := fsm.startTsMs + clipMs
    boundaryMode := .metadata
    events := smEventSetReset }

def maybeEmitContinuousWindow (fsm : SmFsm) (clipMs : Int) : SmFsm × SmFsmAction :=
  let targetBytes := alignedTargetBytes clipMs fsm.byteRate fsm.frameAlign
  if !fsm.continuous ∨ targetBytes = 0 ∨ fsm.totalLength < targetBytes then (fsm, .none)
  else
    (cutContinuousWindow fsm clipMs targetBytes,
      .emitComplete (snapshotContinuousClip fsm clipMs targetBytes))

def smFsmReset : SmFsm where
  active := false
  startTsMs := 0
  endTsMs := 0
  startOffset := 0
  totalLength := 0
  expectedSeq := 0
  expectedOffset := 0
  lastChunkWallMs := 0
  continuous := false
  byteRate := 0
  frameAlign := 0
  boundaryMode := .metadata
  events := smEventSetReset

/-- The record does not follow directly on the last accepted one. -/
def Discontiguous (fsm : SmFsm) (rec : SmMetaRecord) : Prop :=
  fsm.expectedSeq < rec.seq ∨ rec.offset ≠ fsm.expectedOffset

instance (fsm : SmFsm) (rec : SmMetaRecord) : Decidable (Discontiguous fsm rec) :=
  instDecidableOr

def smFsmProcessRecord (fsm : SmFsm) (rec : SmMetaRecord) (clipMs nowMs : Int) :
    SmFsm × SmFsmAction :=
  if !rec.valid then (fsm, .none)
  else if !fsm.active then maybeEmitContinuousWindow (startClip rec nowMs) clipMs
  else if rec.seq < fsm.expectedSeq then (fsm, .rejectLate)
  else if fsm.totalLength = 0 ∧ Discontiguous fsm rec then
    maybeEmitContinuousWindow (startClip rec nowMs) clipMs
  else if Discontiguous fsm rec then
    -- bytes are missing: the current clip is closed as partial
    (startClip rec nowMs, .emitPartial (snapshotClip fsm))
  else if continuousCompatible fsm rec then
    maybeEmitContinuousWindow (appendRecord fsm rec nowMs) clipMs
  else if clipMs ≤ rec.tsMs - fsm.startTsMs then
    -- the boundary chunk becomes the first chunk of the next window
    (startClip rec nowMs, .emitComplete (snapshotClip fsm))
  else (appendRecord fsm rec nowMs, .none)

def smFsmCheckIdle (fsm : SmFsm) (idleMs nowMs : Int) : SmFsm × SmFsmAction :=
  if !fsm.active ∨ fsm.totalLength = 0 then (fsm, .none)
  else if nowMs - fsm.lastChunkWallMs < idleMs then (fsm, .none)
  else (smFsmReset, .emitPartial (snapshotClip fsm))

def smFsmFlushFinal (fsm : SmFsm) : SmFsm × SmFsmAction :=
  if !fsm.active ∨ fsm.totalLength = 0 then (fsm, .none)
  else (smFsmReset, .emitComplete (snapshotClip fsm))

end StreamDataPipeline.StreamMerge.Fsm
