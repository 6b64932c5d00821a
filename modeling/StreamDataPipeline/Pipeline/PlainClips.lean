/- The clips of records without tags that belong to no continuous stream. -/

import StreamDataPipeline.Pipeline.ClipKeys
import StreamDataPipeline.StreamMerge.Segmentation

/-!
None of the clips is empty, none has a tag, and each starts and ends at the time of a record.
Together they hold the bytes of the accepted records, so they start where these let them.
-/

set_option autoImplicit false
set_option relaxedAutoImplicit false

namespace StreamDataPipeline.Pipeline.PlainClips

open Foundations StreamMerge.Events StreamMerge.Fsm StreamMerge.FsmRun
  StreamMerge.ByteConservation StreamMerge.Segmentation
open ClipKeys

/-- A record with some bytes, without tags, and with a time stamp that the reader lets through. -/
def PlainRecord (rec : SmMetaRecord) : Prop :=
  MetadataOnly rec ∧ rec.events = smEventSetReset ∧ |rec.tsMs| ≤ 2 ^ 53 - 1

/-- An open window has some bytes, no tags, and starts with a record. -/
structure PlainState (fsm : SmFsm) : Prop where
  tiled : Tiled fsm
  opened : fsm.active = true → fsm.continuous = false ∧ 0 < fsm.totalLength ∧
    fsm.events = smEventSetReset ∧ |fsm.startTsMs| ≤ 2 ^ 53 - 1 ∧ |fsm.endTsMs| ≤ 2 ^ 53 - 1

structure PlainClip (clip : SmClipRecord) : Prop where
  pending : 0 < clip.totalLength
  untagged : clip.events = smEventSetReset
  started : |clip.startTsMs| ≤ 2 ^ 53 - 1
  ended : |clip.endTsMs| ≤ 2 ^ 53 - 1
  bound : clip.startOffset + clip.totalLength ≤ 2 * maxSafeInteger

theorem reset_plain : PlainState smFsmReset :=
  ⟨fun active => by simp [smFsmReset] at active, fun active => by simp [smFsmReset] at active⟩

theorem startClip_plain {rec : SmMetaRecord} (plain : PlainRecord rec) (nowMs : Int) :
    PlainState (startClip rec nowMs) where
  tiled := startClip_tiled plain.1.1.2 nowMs
  opened _ := ⟨plain.1.2.1, plain.1.2.2, plain.2.1, plain.2.2, plain.2.2⟩

theorem snapshot_plain {fsm : SmFsm} (plain : PlainState fsm) (active : fsm.active = true) :
    PlainClip (snapshotClip fsm) := by
  obtain ⟨-, pending, untagged, started, ended⟩ := plain.opened active
  obtain ⟨ends, bound⟩ := plain.tiled active
  exact ⟨pending, untagged, started, ended, ends.trans_le bound⟩

theorem appendRecord_plain {fsm : SmFsm} {rec : SmMetaRecord} (plain : PlainState fsm)
    (record : PlainRecord rec) (active : fsm.active = true)
    (offset : rec.offset = fsm.expectedOffset) (nowMs : Int) :
    PlainState (appendRecord fsm rec nowMs) := by
  have range := record.1.1.2
  obtain ⟨still, pending, untagged, dated, -⟩ := plain.opened active
  refine ⟨appendRecord_tiled plain.tiled active range offset nowMs,
    fun _ => ⟨still, ?_, ?_, dated, record.2.2⟩⟩
  · rw [appendRecord_length plain.tiled active range offset nowMs]
    omega
  · have merged : (appendRecord fsm rec nowMs).events =
        (smEventSetAddAll fsm.events rec.events).1 := rfl
    rw [merged, untagged, record.2.1]
    rfl

theorem record_plain {clipMs nowMs : Int} {fsm : SmFsm} {rec : SmMetaRecord}
    {next : SmFsm × SmFsmAction} (plain : PlainState fsm) (record : PlainRecord rec)
    (step : RecordStep clipMs nowMs fsm rec next) :
    PlainState next.1 ∧ ∀ clip ∈ clipsOf next.2, PlainClip clip := by
  cases step with
  | restart reopens empty window =>
      obtain rfl := startClip_window record.1 window
      exact ⟨startClip_plain record nowMs, by simp [clipsOf]⟩
  | late => exact ⟨plain, by simp [clipsOf]⟩
  | gap active =>
      exact ⟨startClip_plain record nowMs, by simpa [clipsOf] using snapshot_plain plain active⟩
  | continuousAppend active seq offset compatible =>
      simp [continuousCompatible, (plain.opened active).1] at compatible
  | boundary active =>
      exact ⟨startClip_plain record nowMs, by simpa [clipsOf] using snapshot_plain plain active⟩
  | append active seq offset =>
      exact ⟨appendRecord_plain plain record active offset nowMs, by simp [clipsOf]⟩

theorem flush_plain {fsm : SmFsm} {emit : SmClipRecord → SmFsmAction}
    {next : SmFsm × SmFsmAction} (emits : ∀ clip, clipsOf (emit clip) = [clip])
    (plain : PlainState fsm) (step : FlushStep fsm emit next) :
    PlainState next.1 ∧ ∀ clip ∈ clipsOf next.2, PlainClip clip := by
  cases step with
  | keep => exact ⟨plain, by simp [clipsOf]⟩
  | flush active =>
      exact ⟨reset_plain, by simpa [emits] using snapshot_plain plain active⟩

theorem step_plain {fsm : SmFsm} {event : FsmEvent} (plain : PlainState fsm)
    (record : event.Satisfies PlainRecord) :
    PlainState (fsmStep fsm event).1 ∧ ∀ clip ∈ clipsOf (fsmStep fsm event).2, PlainClip clip := by
  cases event with
  | idle idleMs nowMs => exact flush_plain (fun _ => rfl) plain (checkIdle_step fsm idleMs nowMs)
  | record rec clipMs nowMs =>
      exact record_plain plain record (processRecord_step record.1.1.1 fsm clipMs nowMs)

theorem runClips_plain {events : List FsmEvent}
    (records : ∀ e ∈ events, e.Satisfies PlainRecord) :
    ∀ clip ∈ runClips events, PlainClip clip := by
  have ended : PlainState (fsmRun smFsmReset events).1 :=
    Mealy.run_invariant fsmStep PlainState (FsmEvent.Satisfies PlainRecord)
      (fun _ _ plain record => (step_plain plain record).1) smFsmReset events reset_plain records
  have along : ∀ action ∈ (fsmRun smFsmReset events).2, ∀ clip ∈ clipsOf action, PlainClip clip :=
    (Mealy.along_outputs fsmStep (fun action => ∀ clip ∈ clipsOf action, PlainClip clip)
      smFsmReset events).mp (Mealy.along_of_invariant fsmStep PlainState
        (FsmEvent.Satisfies PlainRecord) (fun _ _ plain record => (step_plain plain record).2)
        (fun _ _ plain record => (step_plain plain record).1) reset_plain records)
  have last := (flush_plain (fun _ => rfl) ended (flushFinal_step (fsmRun smFsmReset events).1).1).2
  intro clip mem
  obtain ⟨action, done, emitted⟩ := List.mem_flatMap.mp mem
  rcases List.mem_append.mp done with here | final
  · exact along action here clip emitted
  · rw [List.mem_singleton.mp final] at emitted
    exact last clip emitted

theorem runClips_bytes {events : List FsmEvent} (admitted : ∀ e ∈ events, e.Satisfies Admitted) :
    (runClips events).flatMap clipBytes =
      (acceptedRecords events (fsmRun smFsmReset events).2).flatMap recordBytes := by
  have tiled : Tiled (fsmRun smFsmReset events).1 :=
    Mealy.run_invariant fsmStep Tiled (FsmEvent.Satisfies Admitted)
      (fun fsm event tiled h => (step_conserves fsm event tiled h).1)
      smFsmReset events (fun h => by simp [smFsmReset] at h) admitted
  obtain ⟨flushed, drained⟩ := flushFinal_step (fsmRun smFsmReset events).1
  have last := (flush_conserves (fun _ => rfl) tiled flushed).2
  rw [pendingBytes_of_empty fun active => drained.resolve_left (by simp [active]),
    List.append_nil] at last
  rw [run_bytes events admitted, last, runClips, emittedClips, emittedClips, List.flatMap_append,
    List.flatMap_append]
  simp

section Positions

variable {clips : List SmClipRecord}

theorem start_mem {clip : SmClipRecord} (pending : 0 < clip.totalLength) :
    clip.startOffset ∈ clipBytes clip := List.mem_range'_1.mpr ⟨le_rfl, by omega⟩

theorem starts_rise (pending : ∀ clip ∈ clips, 0 < clip.totalLength)
    (rises : (clips.flatMap clipBytes).Pairwise (· < ·)) :
    clips.Pairwise fun a b => a.startOffset < b.startOffset := by
  obtain ⟨-, apart⟩ := List.pairwise_flatMap.mp rises
  apply apart.imp_of_mem
  intro a b inA inB less
  exact less _ (start_mem (pending a inA)) _ (start_mem (pending b inB))

theorem clips_end {size : Nat} (pending : ∀ clip ∈ clips, 0 < clip.totalLength)
    (inside : ∀ i ∈ clips.flatMap clipBytes, i < size) :
    ∀ clip ∈ clips, clip.startOffset + clip.totalLength ≤ size := by
  intro clip mem
  have some_byte := pending clip mem
  have last : clip.startOffset + clip.totalLength - 1 ∈ clipBytes clip :=
    List.mem_range'_1.mpr ⟨by omega, by omega⟩
  have bound := inside _ (List.mem_flatMap.mpr ⟨clip, mem, last⟩)
  omega

end Positions

end StreamDataPipeline.Pipeline.PlainClips
