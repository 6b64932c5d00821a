/- Metadata streams are cut into the greedy segments of their records. -/

import StreamDataPipeline.Foundations.GreedySplit
import StreamDataPipeline.StreamMerge.ByteConservation

/-!
The reference works on the whole list of records: late records are dropped, the
others are divided greedily, and every segment yields one clip. The state of
the machine holds the segment that is still open.
-/

set_option autoImplicit false
set_option relaxedAutoImplicit false

namespace StreamDataPipeline.StreamMerge.Segmentation

open Foundations Foundations.Word Foundations.GreedySplit Fsm FsmRun ByteConservation

abbrev Segment := Piece SmMetaRecord

/-- A record stays in a segment that it follows, within the window that the first
record of the segment opened. -/
def Extends (clipMs : Int) (segment : Segment) (rec : SmMetaRecord) : Prop :=
  Follows segment.last rec ∧ rec.tsMs - segment.first.tsMs < clipMs

instance (clipMs : Int) (segment : Segment) (rec : SmMetaRecord) :
    Decidable (Extends clipMs segment rec) := instDecidableAnd

/-- Drop the records below the sequence number after the last kept one. -/
def keepAfter (last : SmMetaRecord) : List SmMetaRecord → List SmMetaRecord
  | [] => []
  | rec :: rest =>
      if rec.seq < last.seq + 1 then keepAfter last rest else rec :: keepAfter rec rest

def keptRecords : List SmMetaRecord → List SmMetaRecord
  | [] => []
  | rec :: rest => rec :: keepAfter rec rest

def segments (clipMs : Int) (records : List SmMetaRecord) : List Segment :=
  split (Extends clipMs) (keptRecords records)

/-- What the reference and the state machine are compared on. -/
structure ClipReport where
  startTsMs : Int
  endTsMs : Int
  startOffset : Nat
  totalLength : Nat
  complete : Bool
  deriving DecidableEq

/-- A segment is complete unless the record after it does not follow on it. -/
def segmentReport (segment : Segment) (next : Option Segment) : ClipReport where
  startTsMs := segment.first.tsMs
  endTsMs := segment.last.tsMs
  startOffset := segment.first.offset
  totalLength := (segment.members.map SmMetaRecord.length).sum
  complete := next.all fun opened => decide (Follows segment.last opened.first)

def segmentReports : List Segment → List ClipReport
  | [] => []
  | segment :: rest => segmentReport segment rest.head? :: segmentReports rest

def clipReport (clip : SmClipRecord) (complete : Bool) : ClipReport where
  startTsMs := clip.startTsMs
  endTsMs := clip.endTsMs
  startOffset := clip.startOffset
  totalLength := clip.totalLength
  complete := complete

def actionReports : SmFsmAction → List ClipReport
  | .none | .rejectLate => []
  | .emitComplete clip => [clipReport clip true]
  | .emitPartial clip => [clipReport clip false]

/-- Process the records one after another, each at its own time, and flush at the end. -/
def sessionReports (fsm : SmFsm) (clipMs : Int) (calls : List (SmMetaRecord × Int)) :
    List ClipReport :=
  let done := fsmRun fsm (calls.map fun call => .record call.1 clipMs call.2)
  (done.2 ++ [(smFsmFlushFinal done.1).2]).flatMap actionReports

/-- A record of a metadata-only stream as the reader lets it through. -/
def MetadataOnly (rec : SmMetaRecord) : Prop :=
  Admitted rec ∧ rec.continuous = false ∧ 0 < rec.length

instance : DecidablePred MetadataOnly := fun _ => instDecidableAnd

/-- The state holds the open segment. -/
structure Holds (fsm : SmFsm) (segment : Segment) : Prop where
  active : fsm.active = true
  continuous : fsm.continuous = false
  startTsMs : fsm.startTsMs = segment.first.tsMs
  endTsMs : fsm.endTsMs = segment.last.tsMs
  startOffset : fsm.startOffset = segment.first.offset
  totalLength : fsm.totalLength = (segment.members.map SmMetaRecord.length).sum
  expectedSeq : fsm.expectedSeq = segment.last.seq + 1
  expectedOffset : fsm.expectedOffset = segment.last.offset + segment.last.length
  pending : 0 < fsm.totalLength
  tiled : Tiled fsm

theorem startClip_holds {rec : SmMetaRecord} (only : MetadataOnly rec) (nowMs : Int) :
    Holds (startClip rec nowMs) (.single rec) where
  active := rfl
  continuous := only.2.1
  startTsMs := rfl
  endTsMs := rfl
  startOffset := rfl
  totalLength := by simp [startClip]
  expectedSeq := expectedSeq_exact only.1.2
  expectedOffset := (expectedOffset_exact only.1.2).1
  pending := only.2.2
  tiled := startClip_tiled only.1.2 nowMs

theorem appendRecord_holds {fsm : SmFsm} {segment : Segment} {rec : SmMetaRecord}
    (holds : Holds fsm segment) (only : MetadataOnly rec)
    (offset : rec.offset = fsm.expectedOffset) (nowMs : Int) :
    Holds (appendRecord fsm rec nowMs) (segment.push rec) := by
  have length := appendRecord_length holds.tiled holds.active only.1.2 offset nowMs
  exact {
    active := holds.active
    continuous := holds.continuous
    startTsMs := holds.startTsMs
    endTsMs := by rw [Piece.last_push]; rfl
    startOffset := holds.startOffset
    totalLength := by simp [length, holds.totalLength]
    expectedSeq := by
      rw [Piece.last_push]
      exact expectedSeq_exact only.1.2
    expectedOffset := by
      rw [Piece.last_push]
      exact (expectedOffset_exact only.1.2).1
    pending := by
      have := only.2.2
      omega
    tiled := appendRecord_tiled holds.tiled holds.active only.1.2 offset nowMs }

theorem startClip_window {clipMs nowMs : Int} {rec : SmMetaRecord}
    (only : MetadataOnly rec) {next : SmFsm × SmFsmAction}
    (window : WindowStep clipMs (startClip rec nowMs) next) :
    next = (startClip rec nowMs, .none) := by
  cases window with
  | keep => rfl
  | cut continuous => exact absurd continuous (by simp [startClip, only.2.1])

private theorem Holds.report {fsm : SmFsm} {segment : Segment} (holds : Holds fsm segment)
    (next : Option Segment) :
    clipReport (snapshotClip fsm) (segmentReport segment next).complete =
      segmentReport segment next := by
  simp only [clipReport, snapshotClip, segmentReport, holds.startTsMs, holds.endTsMs,
    holds.startOffset, holds.totalLength]

private theorem Holds.follows {fsm : SmFsm} {segment : Segment} (holds : Holds fsm segment)
    (rec : SmMetaRecord) :
    Follows segment.last rec ↔ rec.seq = fsm.expectedSeq ∧ rec.offset = fsm.expectedOffset := by
  rw [Follows, holds.expectedSeq, holds.expectedOffset]

/-- What one record does to the open segment: it is late, it extends the segment, or
it closes the segment and opens the next one. -/
theorem record_holds {fsm : SmFsm} {segment : Segment} {rec : SmMetaRecord}
    (holds : Holds fsm segment) (only : MetadataOnly rec) (clipMs nowMs : Int) :
    (rec.seq < segment.last.seq + 1 ∧
      smFsmProcessRecord fsm rec clipMs nowMs = (fsm, .rejectLate)) ∨
    (segment.last.seq + 1 ≤ rec.seq ∧ Extends clipMs segment rec ∧
      Holds (smFsmProcessRecord fsm rec clipMs nowMs).1 (segment.push rec) ∧
      actionReports (smFsmProcessRecord fsm rec clipMs nowMs).2 = []) ∨
    (segment.last.seq + 1 ≤ rec.seq ∧ ¬ Extends clipMs segment rec ∧
      Holds (smFsmProcessRecord fsm rec clipMs nowMs).1 (.single rec) ∧
      actionReports (smFsmProcessRecord fsm rec clipMs nowMs).2 =
        [clipReport (snapshotClip fsm) (decide (Follows segment.last rec))]) := by
  have step := processRecord_step only.1.1 fsm clipMs nowMs
  have pending := holds.pending
  have seqEnd := holds.expectedSeq
  have opened := holds.startTsMs
  have follows := holds.follows rec
  generalize smFsmProcessRecord fsm rec clipMs nowMs = next at step ⊢
  cases step with
  | restart reopens empty window =>
      have zero := empty holds.active
      omega
  | late active behind => exact .inl ⟨by omega, rfl⟩
  | gap active nonzero reopens =>
      have jump := reopens.resolve_left (by simp [active])
      have apart : ¬ Follows segment.last rec := by
        rw [follows]
        rintro ⟨seq, offset⟩
        rcases jump.2 with ahead | moved
        · omega
        · exact moved offset
      refine .inr (.inr ⟨by omega, fun extended => apart extended.1,
        startClip_holds only nowMs, ?_⟩)
      simp [actionReports, apart]
  | continuousAppend active seq offset compatible window =>
      simp [continuousCompatible, holds.continuous] at compatible
  | boundary active seq offset reached =>
      have next : Follows segment.last rec := follows.mpr ⟨seq, offset⟩
      refine .inr (.inr ⟨by omega, ?_, startClip_holds only nowMs, ?_⟩)
      · rintro ⟨_, within⟩
        omega
      · simp [actionReports, next]
  | append active seq offset incompatible within =>
      refine .inr (.inl ⟨by omega, ⟨follows.mpr ⟨seq, offset⟩, by omega⟩,
        appendRecord_holds holds only offset nowMs, rfl⟩)

private theorem sessionReports_cons (fsm : SmFsm) (clipMs : Int) (call : SmMetaRecord × Int)
    (calls : List (SmMetaRecord × Int)) :
    sessionReports fsm clipMs (call :: calls) =
      actionReports (smFsmProcessRecord fsm call.1 clipMs call.2).2 ++
        sessionReports (smFsmProcessRecord fsm call.1 clipMs call.2).1 clipMs calls := by
  simp only [sessionReports, List.map_cons, fsmRun, Mealy.run_cons, fsmStep, List.cons_append,
    List.flatMap_cons]

private theorem segmentReports_opens (clipMs : Int) (segment : Segment) (rec : SmMetaRecord)
    (rest : List SmMetaRecord) :
    segmentReports (segment :: splitFrom (Extends clipMs) (.single rec) rest) =
      segmentReport segment (some (.single rec)) ::
        segmentReports (splitFrom (Extends clipMs) (.single rec) rest) := by
  obtain ⟨grown, groups, equal, opened⟩ := splitFrom_head (Extends clipMs) (.single rec) rest
  have same : segmentReport segment (some grown) = segmentReport segment (some (.single rec)) := by
    simp only [segmentReport, Option.all_some, opened]
  rw [equal, segmentReports, List.head?_cons, same]

/-- From a state that holds a segment, the clips still to come are the segments into which
the rest of the records divides. The induction is on the records. -/
theorem sessionReports_holds {fsm : SmFsm} {segment : Segment} (clipMs : Int)
    (calls : List (SmMetaRecord × Int)) (only : ∀ call ∈ calls, MetadataOnly call.1)
    (holds : Holds fsm segment) :
    sessionReports fsm clipMs calls =
      segmentReports (splitFrom (Extends clipMs) segment
        (keepAfter segment.last (calls.map Prod.fst))) := by
  induction calls generalizing fsm segment with
  | nil =>
      have pending := holds.pending
      have flushed : smFsmFlushFinal fsm = (smFsmReset, .emitComplete (snapshotClip fsm)) := by
        rw [smFsmFlushFinal, if_neg (by simp [holds.active]; omega)]
      simp only [sessionReports, List.map_nil, fsmRun, Mealy.run_nil, List.nil_append, flushed,
        List.flatMap_cons, List.flatMap_nil, List.append_nil, actionReports, keepAfter, splitFrom,
        segmentReports, List.head?_nil]
      exact congrArg (fun report => [report]) (holds.report none)
  | cons call calls ih =>
      have here := only call List.mem_cons_self
      have rest := fun c hc => only c (List.mem_cons_of_mem call hc)
      rw [sessionReports_cons, List.map_cons, keepAfter]
      rcases record_holds holds here clipMs call.2 with
        ⟨late, same⟩ | ⟨fresh, joins, held, silent⟩ | ⟨fresh, apart, held, emitted⟩
      · rw [if_pos late, same, ih rest holds]
        rfl
      · rw [if_neg (by omega), splitFrom_cons_extends (Extends clipMs) joins, silent,
          ih rest held, Piece.last_push]
        rfl
      · rw [if_neg (by omega), splitFrom_cons_opens (Extends clipMs) apart, emitted,
          ih rest held, segmentReports_opens, Piece.last_single]
        have report := holds.report (some (.single call.1))
        exact congrArg (fun r => r :: _) report

/-- The clips of a metadata-only session are exactly its greedy segments. -/
theorem session_cuts_segments (clipMs : Int) (calls : List (SmMetaRecord × Int))
    (only : ∀ call ∈ calls, MetadataOnly call.1) :
    sessionReports smFsmReset clipMs calls =
      segmentReports (segments clipMs (calls.map Prod.fst)) := by
  cases calls with
  | nil => rfl
  | cons call calls =>
      have here := only call List.mem_cons_self
      have started : smFsmProcessRecord smFsmReset call.1 clipMs call.2 =
          (startClip call.1 call.2, .none) := by
        have step := processRecord_step here.1.1 smFsmReset clipMs call.2
        generalize smFsmProcessRecord smFsmReset call.1 clipMs call.2 = next at step ⊢
        cases step with
        | restart reopens empty window => exact startClip_window here window
        | late active => exact absurd active (by decide)
        | gap active => exact absurd active (by decide)
        | continuousAppend active => exact absurd active (by decide)
        | boundary active => exact absurd active (by decide)
        | append active => exact absurd active (by decide)
      rw [sessionReports_cons, started, List.map_cons, segments, keptRecords, split,
        sessionReports_holds clipMs calls (fun c hc => only c (List.mem_cons_of_mem call hc))
          (startClip_holds here call.2)]
      rfl

/-- A window boundary, a late copy and a gap, then the final flush. -/
theorem session_cuts_segments_at_boundary_and_gap :
    sessionReports smFsmReset 5000
        [(dataRecord 1 0 100 5000, 1), (dataRecord 2 100 200 6000, 2), (dataRecord 1 0 100 7000, 3),
          (dataRecord 3 300 50 11000, 4), (dataRecord 7 400 10 11500, 5)] =
      [⟨5000, 6000, 0, 300, true⟩, ⟨11000, 11000, 300, 50, false⟩,
        ⟨11500, 11500, 400, 10, true⟩] :=
  (session_cuts_segments 5000 _ (by decide)).trans (by decide)

end StreamDataPipeline.StreamMerge.Segmentation
