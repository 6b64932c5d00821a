/- No accepted byte is lost, duplicated or reordered between records and clips. -/

import StreamDataPipeline.StreamMerge.FsmRun

/-!
The pending window always ends where the next contiguous record starts, so
every branch of the state machine only moves byte positions along: from the
record into the window, and from the front of the window into a clip.
-/

set_option autoImplicit false
set_option relaxedAutoImplicit false

namespace StreamDataPipeline.StreamMerge.ByteConservation

open Foundations Foundations.Word Fsm FsmRun

/-- The byte positions from `offset` up to `offset + length`, in order. -/
def byteRange (offset length : Nat) : List Nat := List.range' offset length

def clipBytes (clip : SmClipRecord) : List Nat :=
  byteRange clip.startOffset clip.totalLength

def recordBytes (rec : SmMetaRecord) : List Nat := byteRange rec.offset rec.length

/-- The byte positions that the state holds back for a later clip. -/
def pendingBytes (fsm : SmFsm) : List Nat :=
  if fsm.active then byteRange fsm.startOffset fsm.totalLength else []

/-- An active window ends at the expected offset, far below the word size. -/
def Tiled (fsm : SmFsm) : Prop :=
  fsm.active = true → fsm.startOffset + fsm.totalLength = fsm.expectedOffset ∧
    fsm.expectedOffset ≤ 2 * maxSafeInteger

theorem byteRange_split {offset length cut : Nat} (h : cut ≤ length) :
    byteRange offset cut ++ byteRange (offset + cut) (length - cut) = byteRange offset length := by
  have joined := List.range'_append_1 (s := offset) (m := cut) (n := length - cut)
  rwa [Nat.add_sub_cancel' h] at joined

theorem byteRange_append (offset m n : Nat) :
    byteRange offset m ++ byteRange (offset + m) n = byteRange offset (m + n) :=
  List.range'_append_1

private theorem word_room {n : Nat} (h : n ≤ 2 * maxSafeInteger) : n < 2 ^ 64 :=
  lt_of_le_of_lt h (by decide)

theorem expectedOffset_exact {rec : SmMetaRecord} (range : InReaderRange rec) :
    u64Add rec.offset rec.length = rec.offset + rec.length ∧
      rec.offset + rec.length ≤ 2 * maxSafeInteger := by
  have bound : rec.offset + rec.length ≤ 2 * maxSafeInteger := by
    have := range.offset_le
    have := range.length_le
    omega
  exact ⟨u64Add_of_lt (word_room bound), bound⟩

theorem expectedSeq_exact {rec : SmMetaRecord} (range : InReaderRange rec) :
    u64Add rec.seq 1 = rec.seq + 1 := by
  apply u64Add_of_lt
  have := range.seq_le
  simp only [maxSafeInteger] at this
  omega

theorem startClip_tiled {rec : SmMetaRecord} (range : InReaderRange rec) (nowMs : Int) :
    Tiled (startClip rec nowMs) := by
  intro _
  obtain ⟨exact_offset, bound⟩ := expectedOffset_exact range
  simp only [startClip, exact_offset]
  exact ⟨trivial, bound⟩

theorem pendingBytes_startClip (rec : SmMetaRecord) (nowMs : Int) :
    pendingBytes (startClip rec nowMs) = recordBytes rec := rfl

theorem appendRecord_length {fsm : SmFsm} {rec : SmMetaRecord} (tiled : Tiled fsm)
    (active : fsm.active = true) (range : InReaderRange rec)
    (offset : rec.offset = fsm.expectedOffset) (nowMs : Int) :
    (appendRecord fsm rec nowMs).totalLength = fsm.totalLength + rec.length := by
  obtain ⟨ends, _⟩ := tiled active
  obtain ⟨_, bound⟩ := expectedOffset_exact range
  exact u64Add_of_lt (word_room (by omega))

theorem appendRecord_tiled {fsm : SmFsm} {rec : SmMetaRecord} (tiled : Tiled fsm)
    (active : fsm.active = true) (range : InReaderRange rec)
    (offset : rec.offset = fsm.expectedOffset) (nowMs : Int) :
    Tiled (appendRecord fsm rec nowMs) := by
  intro _
  obtain ⟨ends, _⟩ := tiled active
  obtain ⟨exact_offset, bound⟩ := expectedOffset_exact range
  rw [appendRecord_length tiled active range offset nowMs]
  simp only [appendRecord, exact_offset]
  exact ⟨by omega, bound⟩

theorem pendingBytes_appendRecord {fsm : SmFsm} {rec : SmMetaRecord} (tiled : Tiled fsm)
    (active : fsm.active = true) (range : InReaderRange rec)
    (offset : rec.offset = fsm.expectedOffset) (nowMs : Int) :
    pendingBytes (appendRecord fsm rec nowMs) = pendingBytes fsm ++ recordBytes rec := by
  have length := appendRecord_length tiled active range offset nowMs
  have still : (appendRecord fsm rec nowMs).active = true := active
  have start : (appendRecord fsm rec nowMs).startOffset = fsm.startOffset := rfl
  simp only [pendingBytes, still, active, start, length, if_true, recordBytes]
  rw [offset, ← (tiled active).1, byteRange_append]

theorem window_conserves {fsm : SmFsm} {clipMs : Int} {next : SmFsm × SmFsmAction}
    (tiled : Tiled fsm) (active : fsm.active = true) (window : WindowStep clipMs fsm next) :
    Tiled next.1 ∧ next.2 ≠ .rejectLate ∧
      pendingBytes fsm = (clipsOf next.2).flatMap clipBytes ++ pendingBytes next.1 := by
  obtain ⟨ends, bound⟩ := tiled active
  cases window with
  | keep => exact ⟨tiled, by simp, by simp [clipsOf]⟩
  | cut continuous positive full =>
      have offset_room := word_room (show fsm.startOffset +
        alignedTargetBytes clipMs fsm.byteRate fsm.frameAlign ≤ 2 * maxSafeInteger by omega)
      have length_room := word_room (show fsm.totalLength ≤ 2 * maxSafeInteger by omega)
      refine ⟨?_, by simp, ?_⟩
      · intro _
        simp only [cutContinuousWindow, u64Add_of_lt offset_room, u64Sub_of_le full length_room]
        exact ⟨by omega, bound⟩
      · simp only [pendingBytes, cutContinuousWindow, active, if_true,
          u64Add_of_lt offset_room, u64Sub_of_le full length_room]
        simp only [clipsOf, List.flatMap_cons, List.flatMap_nil, List.append_nil]
        exact (byteRange_split full).symm

theorem pendingBytes_of_empty {fsm : SmFsm} (empty : fsm.active = true → fsm.totalLength = 0) :
    pendingBytes fsm = [] := by
  unfold pendingBytes
  split_ifs with active
  · rw [empty active]
    rfl
  · rfl

theorem snapshotClip_bytes {fsm : SmFsm} (active : fsm.active = true) :
    clipBytes (snapshotClip fsm) = pendingBytes fsm := by
  simp [pendingBytes, active, clipBytes, snapshotClip]

theorem accepted_record {rec : SmMetaRecord} {clipMs nowMs : Int} {action : SmFsmAction}
    (h : action ≠ .rejectLate) : accepted (.record rec clipMs nowMs, action) = [rec] := by
  cases action <;> simp_all [accepted]

/-- What one processed record does to the pending bytes, branch by branch. -/
theorem record_conserves {fsm : SmFsm} {rec : SmMetaRecord} {clipMs nowMs : Int}
    {next : SmFsm × SmFsmAction} (tiled : Tiled fsm) (range : InReaderRange rec)
    (step : RecordStep clipMs nowMs fsm rec next) :
    Tiled next.1 ∧
      pendingBytes fsm ++ (accepted (.record rec clipMs nowMs, next.2)).flatMap recordBytes =
        (clipsOf next.2).flatMap clipBytes ++ pendingBytes next.1 := by
  cases step with
  | restart reopens empty window =>
      obtain ⟨kept, answered, moved⟩ :=
        window_conserves (startClip_tiled range nowMs) rfl window
      refine ⟨kept, ?_⟩
      rw [accepted_record answered, ← moved, pendingBytes_of_empty empty, pendingBytes_startClip]
      simp
  | late active behind =>
      exact ⟨tiled, by simp [accepted, clipsOf]⟩
  | gap active pending reopens =>
      refine ⟨startClip_tiled range nowMs, ?_⟩
      rw [accepted_record (by simp), pendingBytes_startClip]
      simp [clipsOf, snapshotClip_bytes active]
  | continuousAppend active seq offset compatible window =>
      obtain ⟨kept, answered, moved⟩ := window_conserves
        (appendRecord_tiled tiled active range offset nowMs) active window
      refine ⟨kept, ?_⟩
      rw [accepted_record answered, ← moved,
        pendingBytes_appendRecord tiled active range offset]
      simp
  | boundary active seq offset reached =>
      refine ⟨startClip_tiled range nowMs, ?_⟩
      rw [accepted_record (by simp), pendingBytes_startClip]
      simp [clipsOf, snapshotClip_bytes active]
  | append active seq offset incompatible within =>
      refine ⟨appendRecord_tiled tiled active range offset nowMs, ?_⟩
      rw [accepted_record (by simp), pendingBytes_appendRecord tiled active range offset]
      simp [clipsOf]

theorem flush_conserves {fsm : SmFsm} {emit : SmClipRecord → SmFsmAction}
    {next : SmFsm × SmFsmAction} (emits : ∀ clip, clipsOf (emit clip) = [clip])
    (tiled : Tiled fsm) (step : FlushStep fsm emit next) :
    Tiled next.1 ∧
      pendingBytes fsm = (clipsOf next.2).flatMap clipBytes ++ pendingBytes next.1 := by
  cases step with
  | keep => exact ⟨tiled, by simp [clipsOf]⟩
  | flush active pending =>
      refine ⟨fun h => by simp [smFsmReset] at h, ?_⟩
      simp [emits, snapshotClip_bytes active, pendingBytes, smFsmReset]

/-- A record as the state machine receives it from the reader. -/
def Admitted (rec : SmMetaRecord) : Prop := rec.valid = true ∧ InReaderRange rec

instance : DecidablePred Admitted := fun _ => instDecidableAnd

theorem step_conserves (fsm : SmFsm) (event : FsmEvent) (tiled : Tiled fsm)
    (admitted : event.Satisfies Admitted) :
    Tiled (fsmStep fsm event).1 ∧
      pendingBytes fsm ++
          (accepted (event, (fsmStep fsm event).2)).flatMap recordBytes =
        (clipsOf (fsmStep fsm event).2).flatMap clipBytes ++
          pendingBytes (fsmStep fsm event).1 := by
  cases event with
  | record rec clipMs nowMs =>
      exact record_conserves tiled admitted.2
        (processRecord_step admitted.1 fsm clipMs nowMs)
  | idle idleMs nowMs =>
      have moved := flush_conserves (fun _ => rfl) tiled (checkIdle_step fsm idleMs nowMs)
      exact ⟨moved.1, by simpa [accepted, fsmStep] using moved.2⟩

/-- After any run, the bytes taken in are the bytes given out and the bytes held. -/
theorem run_bytes (events : List FsmEvent)
    (admitted : ∀ e ∈ events, e.Satisfies Admitted) :
    (acceptedRecords events (fsmRun smFsmReset events).2).flatMap recordBytes =
      (emittedClips (fsmRun smFsmReset events).2).flatMap clipBytes ++
        pendingBytes (fsmRun smFsmReset events).1 := by
  have conserved := Mealy.run_conserves fsmStep Tiled (FsmEvent.Satisfies Admitted)
    pendingBytes
    (fun pair => (accepted pair).flatMap recordBytes)
    (fun action => (clipsOf action).flatMap clipBytes)
    (fun fsm event tiled h => (step_conserves fsm event tiled h).1)
    (fun fsm event tiled h => (step_conserves fsm event tiled h).2)
    smFsmReset events (fun h => by simp [smFsmReset] at h) admitted
  have nothing : pendingBytes smFsmReset = [] := rfl
  rw [nothing, List.nil_append] at conserved
  simp only [acceptedRecords, emittedClips, List.flatMap_assoc]
  exact conserved

/-- The bytes of all clips, with those of the final flush, are the bytes of all accepted
records: none is lost, duplicated or reordered. -/
theorem clip_bytes_eq_record_bytes (events : List FsmEvent)
    (admitted : ∀ e ∈ events, e.Satisfies Admitted) :
    (emittedClips ((fsmRun smFsmReset events).2 ++
        [(smFsmFlushFinal (fsmRun smFsmReset events).1).2])).flatMap clipBytes =
      (acceptedRecords events (fsmRun smFsmReset events).2).flatMap
        recordBytes := by
  have tiled : Tiled (fsmRun smFsmReset events).1 :=
    Mealy.run_invariant fsmStep Tiled (FsmEvent.Satisfies Admitted)
      (fun fsm event tiled h => (step_conserves fsm event tiled h).1)
      smFsmReset events (fun h => by simp [smFsmReset] at h) admitted
  obtain ⟨flushed, drained⟩ := flushFinal_step (fsmRun smFsmReset events).1
  have last := (flush_conserves (fun _ => rfl) tiled flushed).2
  have empty : pendingBytes (smFsmFlushFinal (fsmRun smFsmReset events).1).1 = [] :=
    pendingBytes_of_empty fun active => drained.resolve_left (by simp [active])
  rw [empty, List.append_nil] at last
  rw [run_bytes events admitted, last]
  simp [emittedClips]

/-- Two continuous records, a late copy, an idle timeout and a jump: the six-byte window
ends inside the second record. -/
theorem clip_bytes_of_cut_windows :
    (emittedClips ((fsmRun smFsmReset [
          .record (continuousRecord 1 0 4 0 3) 2000 10,
          .record (continuousRecord 2 4 4 1000 3) 2000 20,
          .record (continuousRecord 1 0 4 0 3) 2000 30, .idle 50 100,
          .record (dataRecord 7 20 2 9000) 500 110]).2 ++
        [(smFsmFlushFinal (fsmRun smFsmReset [
          .record (continuousRecord 1 0 4 0 3) 2000 10,
          .record (continuousRecord 2 4 4 1000 3) 2000 20,
          .record (continuousRecord 1 0 4 0 3) 2000 30, .idle 50 100,
          .record (dataRecord 7 20 2 9000) 500 110]).1).2])).flatMap clipBytes =
      [0, 1, 2, 3, 4, 5, 6, 7, 20, 21] :=
  (clip_bytes_eq_record_bytes _ (by decide)).trans (by decide)

end StreamDataPipeline.StreamMerge.ByteConservation
