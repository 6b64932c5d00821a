/- The database keys of the clips of one session. -/

import StreamDataPipeline.ClipStore.Main
import StreamDataPipeline.StreamMerge.EmitClip
import StreamDataPipeline.StreamMerge.FsmRun

/-!
A key names a clip by the second in which it starts. Windows that end at a boundary or
are cut off start a clip length apart; only a record that opens a window on its own can
start a clip in a second that is already taken.
-/

set_option autoImplicit false
set_option relaxedAutoImplicit false

namespace StreamDataPipeline.Pipeline.ClipKeys

open Foundations Foundations.ByteString Foundations.Decimal StreamMerge.Fsm StreamMerge.FsmRun
  StreamMerge.EmitClip
open ClipStore.Main

/-- The clip that the state would hand over now. -/
def pendingClip (fsm : SmFsm) : List SmClipRecord :=
  if fsm.active = true ∧ fsm.totalLength ≠ 0 then [snapshotClip fsm] else []

/-- The clips of the calls so far, and the one that is still open. -/
def clipsSoFar (before : List FsmEvent) : List SmClipRecord :=
  emittedClips (fsmRun smFsmReset before).2 ++
    pendingClip (fsmRun smFsmReset before).1

/-- A record that opens a window on its own lies in a later second than the start of every
clip before it. -/
def StartsLater (before : List FsmEvent) : FsmEvent → Prop
  | .record rec _ _ => rec.valid = true → Reopens (fsmRun smFsmReset before).1 rec →
      ∀ clip ∈ clipsSoFar before, tsSec clip < rec.tsMs.tdiv 1000
  | .idle _ _ => True

instance (before : List FsmEvent) : (event : FsmEvent) → Decidable (StartsLater before event)
  | .record rec _ _ =>
      inferInstanceAs (Decidable (rec.valid = true → Reopens _ rec → ∀ clip ∈ _, _))
  | .idle _ _ => isTrue trivial

/-- A valid record that does not lie before the epoch. -/
def Dated (rec : SmMetaRecord) : Prop := rec.valid = true → 0 ≤ rec.tsMs

instance : DecidablePred Dated := fun rec =>
  inferInstanceAs (Decidable (rec.valid = true → 0 ≤ rec.tsMs))

/-- The window length of a call is at least a second. -/
def LongWindow : FsmEvent → Prop
  | .record _ clipMs _ => 1000 ≤ clipMs
  | .idle _ _ => True

instance : DecidablePred LongWindow
  | .record _ clipMs _ => inferInstanceAs (Decidable (1000 ≤ clipMs))
  | .idle _ _ => isTrue trivial

/-- The clips of a whole run, with the one of the final flush. -/
def runClips (events : List FsmEvent) : List SmClipRecord :=
  emittedClips ((fsmRun smFsmReset events).2 ++
    [(smFsmFlushFinal (fsmRun smFsmReset events).1).2])

def clipKeys (session : Bytes) (events : List FsmEvent) : List Bytes :=
  (runClips events).map fun clip => clipKey session (tsSec clip)

/-- The emitted clips start in rising seconds, and an open window starts in a later one. -/
structure Separated (fsm : SmFsm) (emitted : List SmClipRecord) : Prop where
  rising : (emitted.map tsSec).Pairwise (· < ·)
  later : fsm.active = true → 0 ≤ fsm.startTsMs ∧
    ∀ clip ∈ emitted, tsSec clip < fsm.startTsMs.tdiv 1000

private theorem second_later {start next clipMs : Int} (dated : 0 ≤ start) (long : 1000 ≤ clipMs)
    (apart : clipMs ≤ next - start) : start.tdiv 1000 < next.tdiv 1000 := by
  rw [Int.tdiv_eq_ediv_of_nonneg dated, Int.tdiv_eq_ediv_of_nonneg (by omega)]
  omega

private theorem rising_concat {emitted : List SmClipRecord} {clip : SmClipRecord}
    (rising : (emitted.map tsSec).Pairwise (· < ·))
    (above : ∀ earlier ∈ emitted, tsSec earlier < tsSec clip) :
    ((emitted ++ [clip]).map tsSec).Pairwise (· < ·) := by
  rw [List.map_append, List.pairwise_append]
  refine ⟨rising, by simp, ?_⟩
  intro a ha b hb
  obtain ⟨earlier, mem, rfl⟩ := List.mem_map.mp ha
  obtain rfl := List.mem_singleton.mp hb
  exact above earlier mem

private theorem window_separated {clipMs : Int} (long : 1000 ≤ clipMs) {fsm : SmFsm}
    {next : SmFsm × SmFsmAction} {emitted : List SmClipRecord} (active : fsm.active = true)
    (separated : Separated fsm emitted) (window : WindowStep clipMs fsm next) :
    Separated next.1 (emitted ++ clipsOf next.2) := by
  obtain ⟨dated, above⟩ := separated.later active
  cases window with
  | keep => simpa [clipsOf] using separated
  | cut =>
      have cutLater : fsm.startTsMs.tdiv 1000 < (fsm.startTsMs + clipMs).tdiv 1000 :=
        second_later dated long (by omega)
      refine ⟨rising_concat separated.rising above, fun _ => ⟨?_, ?_⟩⟩
      · simp only [cutContinuousWindow]
        omega
      · intro clip mem
        rcases List.mem_append.mp mem with old | new
        · exact (above clip old).trans cutLater
        · obtain rfl := List.mem_singleton.mp new
          exact cutLater

private theorem record_separated {clipMs nowMs : Int} (long : 1000 ≤ clipMs) {fsm : SmFsm}
    {rec : SmMetaRecord} {next : SmFsm × SmFsmAction} {emitted : List SmClipRecord}
    (dated : 0 ≤ rec.tsMs) (separated : Separated fsm emitted)
    (opens : Reopens fsm rec → ∀ clip ∈ emitted ++ pendingClip fsm,
      tsSec clip < rec.tsMs.tdiv 1000)
    (step : RecordStep clipMs nowMs fsm rec next) :
    Separated next.1 (emitted ++ clipsOf next.2) := by
  cases step with
  | restart reopens empty window =>
      refine window_separated long rfl ⟨separated.rising, fun _ => ⟨dated, ?_⟩⟩ window
      exact fun clip mem => opens reopens clip (List.mem_append_left _ mem)
  | late => simpa [clipsOf] using separated
  | gap active pending reopens =>
      have above := (separated.later active).2
      have handedOver : pendingClip fsm = [snapshotClip fsm] := if_pos ⟨active, pending⟩
      refine ⟨rising_concat separated.rising above, fun _ => ⟨dated, ?_⟩⟩
      rw [handedOver] at opens
      exact opens reopens
  | continuousAppend active seq offset compatible window =>
      have still : (appendRecord fsm rec nowMs).active = true := active
      exact window_separated long still
        ⟨separated.rising, fun _ => separated.later active⟩ window
  | boundary active seq offset reached =>
      obtain ⟨started, above⟩ := separated.later active
      have boundaryLater := second_later started long reached
      refine ⟨rising_concat separated.rising above, fun _ => ⟨dated, ?_⟩⟩
      intro clip mem
      rcases List.mem_append.mp mem with old | new
      · exact (above clip old).trans boundaryLater
      · obtain rfl := List.mem_singleton.mp new
        exact boundaryLater
  | append active seq offset incompatible within =>
      refine ⟨by simpa [clipsOf] using separated.rising, fun _ => ?_⟩
      simpa [clipsOf, appendRecord] using separated.later active

private theorem flush_rising {fsm : SmFsm} {emit : SmClipRecord → SmFsmAction}
    {next : SmFsm × SmFsmAction} {emitted : List SmClipRecord}
    (emits : ∀ clip, clipsOf (emit clip) = [clip]) (separated : Separated fsm emitted)
    (step : FlushStep fsm emit next) : Separated next.1 (emitted ++ clipsOf next.2) := by
  cases step with
  | keep => simpa [clipsOf] using separated
  | flush active pending =>
      refine ⟨?_, fun h => by simp [smFsmReset] at h⟩
      rw [emits]
      exact rising_concat separated.rising (separated.later active).2

private theorem step_separated {fsm : SmFsm} {emitted : List SmClipRecord}
    (separated : Separated fsm emitted) (event : FsmEvent) (long : LongWindow event)
    (dated : event.Satisfies Dated)
    (opens : ∀ rec clipMs nowMs, event = .record rec clipMs nowMs → rec.valid = true →
      Reopens fsm rec → ∀ clip ∈ emitted ++ pendingClip fsm, tsSec clip < rec.tsMs.tdiv 1000) :
    Separated (fsmStep fsm event).1 (emitted ++ clipsOf (fsmStep fsm event).2) := by
  cases event with
  | idle idleMs nowMs =>
      exact flush_rising (fun _ => rfl) separated (checkIdle_step fsm idleMs nowMs)
  | record rec clipMs nowMs =>
      cases valid : rec.valid with
      | false => simpa [fsmStep, smFsmProcessRecord, valid, clipsOf] using separated
      | true =>
          exact record_separated long (dated valid) separated (opens rec clipMs nowMs rfl valid)
            (processRecord_step valid fsm clipMs nowMs)

private theorem run_separated (events : List FsmEvent) (long : ∀ e ∈ events, LongWindow e)
    (dated : ∀ e ∈ events, e.Satisfies Dated)
    (later : ∀ (i : Nat) (h : i < events.length), StartsLater (events.take i) events[i]) :
    Separated (fsmRun smFsmReset events).1
      (emittedClips (fsmRun smFsmReset events).2) := by
  induction events using List.reverseRecOn with
  | nil => exact ⟨by simp [fsmRun, emittedClips], fun h => by simp [fsmRun, smFsmReset] at h⟩
  | append_singleton events event ih =>
      have before := ih (fun e mem => long e (List.mem_append_left _ mem))
        (fun e mem => dated e (List.mem_append_left _ mem)) fun i h => by
          have here := later i (by simp; omega)
          rwa [List.take_append_of_le_length h.le, List.getElem_append_left h] at here
      have last := later events.length (by simp)
      rw [List.take_left, List.getElem_concat_length rfl] at last
      have step := step_separated before event (long event (by simp)) (dated event (by simp))
        fun rec clipMs nowMs equal => by
          subst equal
          exact last
      have unfolded : fsmRun smFsmReset (events ++ [event]) =
          ((fsmStep (fsmRun smFsmReset events).1 event).1,
            (fsmRun smFsmReset events).2 ++
              [(fsmStep (fsmRun smFsmReset events).1 event).2]) :=
        Mealy.run_append _ _ _ _
      rw [unfolded]
      simpa [emittedClips] using step

theorem clipKey_injective (session : Bytes) {a b : Int}
    (equal : clipKey session a = clipKey session b) : a = b :=
  decimal_injective (List.cons.inj (List.append_cancel_left equal)).2

/-- All clips of a session have different keys when every window that a record opens on its
own starts in a later second than all clips before it. -/
theorem clipKeys_nodup (session : Bytes) (events : List FsmEvent)
    (long : ∀ e ∈ events, LongWindow e) (dated : ∀ e ∈ events, e.Satisfies Dated)
    (later : ∀ (i : Nat) (h : i < events.length), StartsLater (events.take i) events[i]) :
    (clipKeys session events).Nodup := by
  have separated := run_separated events long dated later
  have flushed := flush_rising (fun _ => rfl) separated
    (flushFinal_step (fsmRun smFsmReset events).1).1
  have rising : ((runClips events).map tsSec).Pairwise (· < ·) := by
    simpa [runClips, emittedClips] using flushed.rising
  have distinct : ((runClips events).map tsSec).Nodup := rising.imp fun less => less.ne
  have keys : clipKeys session events =
      ((runClips events).map tsSec).map (clipKey session) := by
    simp [clipKeys, Function.comp_def]
  rw [keys]
  exact distinct.map fun _ _ equal => clipKey_injective session equal

/-- A window end, a gap that opens a window in the next second, and an idle timeout. -/
theorem clipKeys_nodup_over_gap :
    (clipKeys (ascii "cam") [.record (dataRecord 1 0 4 1200) 1000 0,
      .record (dataRecord 2 4 4 2200) 1000 10, .record (dataRecord 5 20 4 3000) 1000 20,
      .idle 5 100, .record (dataRecord 6 24 4 4000) 1000 110]).Nodup :=
  clipKeys_nodup (ascii "cam") [.record (dataRecord 1 0 4 1200) 1000 0,
    .record (dataRecord 2 4 4 2200) 1000 10, .record (dataRecord 5 20 4 3000) 1000 20,
    .idle 5 100, .record (dataRecord 6 24 4 4000) 1000 110] (by decide) (by decide) (by decide)

/-- A gap within one second gives two clips of one key. So does a window that starts in the
last second before the epoch and ends in the first one after it. -/
theorem clipKeys_gap_in_one_second :
    clipKeys (ascii "cam") [.record (dataRecord 1 0 4 1000) 5000 0,
        .record (dataRecord 3 8 4 1100) 5000 10] = [ascii "cam:1", ascii "cam:1"] ∧
      clipKeys (ascii "cam") [.record (dataRecord 1 0 4 (-999)) 1000 0,
        .record (dataRecord 2 4 4 1) 1000 10] = [ascii "cam:0", ascii "cam:0"] := by
  decide +kernel

end StreamDataPipeline.Pipeline.ClipKeys
