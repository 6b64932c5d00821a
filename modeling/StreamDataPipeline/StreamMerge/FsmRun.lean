/- Runs of the clip state machine, and what one step of it can do. -/

import StreamDataPipeline.Foundations.Mealy
import StreamDataPipeline.StreamMerge.Fsm

set_option autoImplicit false
set_option relaxedAutoImplicit false

namespace StreamDataPipeline.StreamMerge.FsmRun

open Foundations Foundations.Word Foundations.ByteString Fsm

/-- The two calls that stream_merge makes while a session is read. -/
inductive FsmEvent
  | record (rec : SmMetaRecord) (clipMs nowMs : Int)
  | idle (idleMs nowMs : Int)
  deriving DecidableEq

def fsmStep (fsm : SmFsm) : FsmEvent → SmFsm × SmFsmAction
  | .record rec clipMs nowMs => smFsmProcessRecord fsm rec clipMs nowMs
  | .idle idleMs nowMs => smFsmCheckIdle fsm idleMs nowMs

/-- The calls in order from some state, with the action each of them answered. -/
def fsmRun (fsm : SmFsm) (events : List FsmEvent) : SmFsm × List SmFsmAction :=
  Mealy.run fsmStep fsm events

/-- The largest integer that the metadata reader lets through. -/
def maxSafeInteger : Nat := 2 ^ 53 - 1

/-- What the metadata reader promises of the byte fields of a record. -/
structure InReaderRange (rec : SmMetaRecord) : Prop where
  seq_le : rec.seq ≤ maxSafeInteger
  offset_le : rec.offset ≤ maxSafeInteger
  length_le : rec.length ≤ maxSafeInteger

instance (rec : SmMetaRecord) : Decidable (InReaderRange rec) :=
  decidable_of_iff
    (rec.seq ≤ maxSafeInteger ∧ rec.offset ≤ maxSafeInteger ∧ rec.length ≤ maxSafeInteger)
    ⟨fun h => ⟨h.1, h.2.1, h.2.2⟩, fun h => ⟨h.seq_le, h.offset_le, h.length_le⟩⟩

/-- The next record by sequence number and by byte offset. -/
def Follows (previous rec : SmMetaRecord) : Prop :=
  rec.seq = previous.seq + 1 ∧ rec.offset = previous.offset + previous.length

instance (previous rec : SmMetaRecord) : Decidable (Follows previous rec) := instDecidableAnd

def FsmEvent.Satisfies (P : SmMetaRecord → Prop) : FsmEvent → Prop
  | .record rec _ _ => P rec
  | .idle _ _ => True

instance (P : SmMetaRecord → Prop) [DecidablePred P] : (e : FsmEvent) → Decidable (e.Satisfies P)
  | .record rec _ _ => inferInstanceAs (Decidable (P rec))
  | .idle _ _ => isTrue trivial

def clipsOf : SmFsmAction → List SmClipRecord
  | .none | .rejectLate => []
  | .emitComplete clip | .emitPartial clip => [clip]

def emittedClips (actions : List SmFsmAction) : List SmClipRecord :=
  actions.flatMap clipsOf

/-- The record of a call that was not answered `rejectLate`. -/
def accepted : FsmEvent × SmFsmAction → List SmMetaRecord
  | (.record _ _ _, .rejectLate) => []
  | (.record rec _ _, _) => [rec]
  | (.idle _ _, _) => []

/-- The records that were not answered `rejectLate`, in processing order. -/
def acceptedRecords (events : List FsmEvent) (actions : List SmFsmAction) : List SmMetaRecord :=
  (events.zip actions).flatMap accepted

def dataRecord (seq offset length : Nat) (tsMs : Int) : SmMetaRecord where
  kind := ascii "data"
  seq := seq
  offset := offset
  length := length
  tsMs := tsMs
  continuous := false
  byteRate := 0
  frameAlign := 0
  events := Events.smEventSetReset
  valid := true

def continuousRecord (seq offset length : Nat) (tsMs : Int) (byteRate : Nat) : SmMetaRecord :=
  { dataRecord seq offset length tsMs with continuous := true, byteRate := byteRate }

/-- Whether a full continuous window is cut off a state that was just extended. -/
inductive WindowStep (clipMs : Int) (fsm : SmFsm) : SmFsm × SmFsmAction → Prop
  | keep : WindowStep clipMs fsm (fsm, .none)
  | cut (continuous : fsm.continuous = true)
      (positive : 0 < alignedTargetBytes clipMs fsm.byteRate fsm.frameAlign)
      (full : alignedTargetBytes clipMs fsm.byteRate fsm.frameAlign ≤ fsm.totalLength) :
      WindowStep clipMs fsm
        (cutContinuousWindow fsm clipMs (alignedTargetBytes clipMs fsm.byteRate fsm.frameAlign),
          .emitComplete (snapshotContinuousClip fsm clipMs
            (alignedTargetBytes clipMs fsm.byteRate fsm.frameAlign)))

/-- A record opens a window although no window boundary was reached: nothing is
pending, or the record is neither late nor contiguous. -/
def Reopens (fsm : SmFsm) (rec : SmMetaRecord) : Prop :=
  fsm.active = false ∨ (fsm.expectedSeq ≤ rec.seq ∧ Discontiguous fsm rec)

instance (fsm : SmFsm) (rec : SmMetaRecord) : Decidable (Reopens fsm rec) := instDecidableOr

/-- The ways in which a valid record is processed, one constructor for each branch. -/
inductive RecordStep (clipMs nowMs : Int) (fsm : SmFsm) (rec : SmMetaRecord) :
    SmFsm × SmFsmAction → Prop
  | restart {next : SmFsm × SmFsmAction} (reopens : Reopens fsm rec)
      (empty : fsm.active = true → fsm.totalLength = 0)
      (window : WindowStep clipMs (startClip rec nowMs) next) :
      RecordStep clipMs nowMs fsm rec next
  | late (active : fsm.active = true) (behind : rec.seq < fsm.expectedSeq) :
      RecordStep clipMs nowMs fsm rec (fsm, .rejectLate)
  | gap (active : fsm.active = true) (pending : fsm.totalLength ≠ 0)
      (reopens : Reopens fsm rec) :
      RecordStep clipMs nowMs fsm rec (startClip rec nowMs, .emitPartial (snapshotClip fsm))
  | continuousAppend {next : SmFsm × SmFsmAction} (active : fsm.active = true)
      (seq : rec.seq = fsm.expectedSeq) (offset : rec.offset = fsm.expectedOffset)
      (compatible : continuousCompatible fsm rec = true)
      (window : WindowStep clipMs (appendRecord fsm rec nowMs) next) :
      RecordStep clipMs nowMs fsm rec next
  | boundary (active : fsm.active = true)
      (seq : rec.seq = fsm.expectedSeq) (offset : rec.offset = fsm.expectedOffset)
      (reached : clipMs ≤ rec.tsMs - fsm.startTsMs) :
      RecordStep clipMs nowMs fsm rec (startClip rec nowMs, .emitComplete (snapshotClip fsm))
  | append (active : fsm.active = true)
      (seq : rec.seq = fsm.expectedSeq) (offset : rec.offset = fsm.expectedOffset)
      (incompatible : continuousCompatible fsm rec = false)
      (within : rec.tsMs - fsm.startTsMs < clipMs) :
      RecordStep clipMs nowMs fsm rec (appendRecord fsm rec nowMs, .none)

theorem maybeEmit_step (fsm : SmFsm) (clipMs : Int) :
    WindowStep clipMs fsm (maybeEmitContinuousWindow fsm clipMs) := by
  unfold maybeEmitContinuousWindow
  dsimp only
  split_ifs with h
  · exact .keep
  · simp only [Bool.not_eq_true', not_or, Bool.not_eq_false] at h
    exact .cut h.1 (by omega) (by omega)

private theorem contiguous_of_not {fsm : SmFsm} {rec : SmMetaRecord}
    (late : ¬ rec.seq < fsm.expectedSeq) (gap : ¬ Discontiguous fsm rec) :
    rec.seq = fsm.expectedSeq ∧ rec.offset = fsm.expectedOffset := by
  simp only [Discontiguous, not_or, not_not] at gap
  exact ⟨by omega, gap.2⟩

theorem processRecord_step {rec : SmMetaRecord} (valid : rec.valid = true)
    (fsm : SmFsm) (clipMs nowMs : Int) :
    RecordStep clipMs nowMs fsm rec (smFsmProcessRecord fsm rec clipMs nowMs) := by
  unfold smFsmProcessRecord
  split_ifs with invalid inactive late empty gap compatible reached
  · simp [valid] at invalid
  · have idle : fsm.active = false := by simpa using inactive
    exact .restart (.inl idle) (by simp [idle]) (maybeEmit_step _ _)
  all_goals have active : fsm.active = true := by simpa using inactive
  · exact .late active late
  · exact .restart (.inr ⟨by omega, empty.2⟩) (fun _ => empty.1) (maybeEmit_step _ _)
  · exact .gap active (fun zero => empty ⟨zero, gap⟩) (.inr ⟨by omega, gap⟩)
  all_goals obtain ⟨seq, offset⟩ := contiguous_of_not late gap
  · exact .continuousAppend active seq offset compatible (maybeEmit_step _ _)
  · exact .boundary active seq offset reached
  · exact .append active seq offset (by simpa using compatible) (by omega)

/-- The two ways in which an idle check or the final flush can end. -/
inductive FlushStep (fsm : SmFsm) (emit : SmClipRecord → SmFsmAction) :
    SmFsm × SmFsmAction → Prop
  | keep : FlushStep fsm emit (fsm, .none)
  | flush (active : fsm.active = true) (pending : fsm.totalLength ≠ 0) :
      FlushStep fsm emit (smFsmReset, emit (snapshotClip fsm))

theorem checkIdle_step (fsm : SmFsm) (idleMs nowMs : Int) :
    FlushStep fsm .emitPartial (smFsmCheckIdle fsm idleMs nowMs) := by
  unfold smFsmCheckIdle
  split_ifs with empty waiting
  · exact .keep
  · exact .keep
  · simp only [Bool.not_eq_true', not_or, Bool.not_eq_false] at empty
    exact .flush empty.1 empty.2

theorem flushFinal_step (fsm : SmFsm) :
    FlushStep fsm .emitComplete (smFsmFlushFinal fsm) ∧
      ((smFsmFlushFinal fsm).1.active = false ∨ (smFsmFlushFinal fsm).1.totalLength = 0) := by
  unfold smFsmFlushFinal
  split_ifs with empty
  · exact ⟨.keep, by simpa using empty⟩
  · simp only [Bool.not_eq_true', not_or, Bool.not_eq_false] at empty
    exact ⟨.flush empty.1 empty.2, .inl rfl⟩

private theorem window_emits_active {clipMs : Int} {fsm : SmFsm} {next : SmFsm × SmFsmAction}
    (active : fsm.active = true) (window : WindowStep clipMs fsm next) :
    ∀ clip ∈ clipsOf next.2, clip.active = true := by
  cases window with
  | keep => simp [clipsOf]
  | cut => simpa [clipsOf, snapshotContinuousClip, snapshotClip] using active

theorem step_emits_active (fsm : SmFsm) (event : FsmEvent) :
    ∀ clip ∈ clipsOf (fsmStep fsm event).2, clip.active = true := by
  cases event with
  | idle idleMs nowMs =>
      have step := checkIdle_step fsm idleMs nowMs
      rw [fsmStep]
      generalize smFsmCheckIdle fsm idleMs nowMs = next at step ⊢
      cases step with
      | keep => simp [clipsOf]
      | flush active pending => simpa [clipsOf, snapshotClip] using active
  | record rec clipMs nowMs =>
      rw [fsmStep]
      cases valid : rec.valid with
      | false => simp [smFsmProcessRecord, valid, clipsOf]
      | true =>
          have step := processRecord_step valid fsm clipMs nowMs
          generalize smFsmProcessRecord fsm rec clipMs nowMs = next at step ⊢
          cases step with
          | restart reopens empty window => exact window_emits_active rfl window
          | late => simp [clipsOf]
          | gap active => simpa [clipsOf, snapshotClip] using active
          | continuousAppend active seq offset compatible window =>
              have still : (appendRecord fsm rec nowMs).active = true := active
              exact window_emits_active still window
          | boundary active => simpa [clipsOf, snapshotClip] using active
          | append => simp [clipsOf]

theorem emitted_active (fsm : SmFsm) (events : List FsmEvent) :
    ∀ clip ∈ emittedClips (fsmRun fsm events).2, clip.active = true := by
  induction events generalizing fsm with
  | nil => simp [fsmRun, emittedClips]
  | cons event events ih =>
      intro clip mem
      rw [fsmRun, Mealy.run_cons, emittedClips, List.flatMap_cons, List.mem_append] at mem
      rcases mem with here | later
      · exact step_emits_active fsm event clip here
      · exact ih _ clip later

end StreamDataPipeline.StreamMerge.FsmRun
