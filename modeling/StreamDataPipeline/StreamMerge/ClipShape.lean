/- Lengths and durations of the emitted clips. -/

import StreamDataPipeline.StreamMerge.Branches

set_option autoImplicit false
set_option relaxedAutoImplicit false

namespace StreamDataPipeline.StreamMerge.ClipShape

open Foundations Foundations.Word Fsm FsmRun Branches

/-- The record does not close a window that holds no bytes: after a cut that left nothing
behind, no contiguous record of another stream reaches the end of the window. -/
def ClosesPending (clipMs : Int) (fsm : SmFsm) : FsmCall → Prop
  | .record rec _ => recordBranch clipMs fsm rec = .boundary → 0 < fsm.totalLength
  | .idle _ _ | .flush => True

instance (clipMs : Int) (fsm : SmFsm) : (call : FsmCall) → Decidable (ClosesPending clipMs fsm call)
  | .record rec _ =>
      inferInstanceAs (Decidable (recordBranch clipMs fsm rec = .boundary → _))
  | .idle _ _ | .flush => isTrue trivial

private theorem window_nonempty (clipMs : Int) (fsm : SmFsm) :
    ∀ clip ∈ clipsOf (maybeEmitContinuousWindow fsm clipMs).2, 0 < clip.totalLength := by
  by_cases full : Full clipMs fsm
  · rw [maybeEmit_full full]
    simpa [clipsOf, snapshotContinuousClip] using full.2.1
  · rw [maybeEmit_short full]
    simp [clipsOf]

private theorem drain_nonempty {clipMs : Int} {fsm : SmFsm} {call : FsmCall}
    (drain : ∀ rec nowMs, call ≠ .record rec nowMs) :
    ∀ clip ∈ clipsOf (callStep clipMs fsm call).2, 0 < clip.totalLength := by
  intro clip emitted
  obtain ⟨_, pending, rfl⟩ := drain_clip drain emitted
  exact Nat.pos_of_ne_zero pending

theorem callStep_nonempty_iff (clipMs : Int) (fsm : SmFsm) (call : FsmCall) :
    (∀ clip ∈ clipsOf (callStep clipMs fsm call).2, 0 < clip.totalLength) ↔
      ClosesPending clipMs fsm call := by
  cases call with
  | record rec nowMs =>
      have taken := recordBranch_takes clipMs fsm rec
      simp only [callStep, processRecord_branch, ClosesPending]
      generalize recordBranch clipMs fsm rec = branch at taken ⊢
      cases taken with
      | ignore invalid => simp [branchStep, clipsOf]
      | restart empty => simpa [branchStep] using window_nonempty clipMs (startClip rec nowMs)
      | late => simp [branchStep, clipsOf]
      | gap active pending => simp [branchStep, clipsOf, snapshotClip]; omega
      | extend active offset compatible =>
          simpa [branchStep] using window_nonempty clipMs (appendRecord fsm rec nowMs)
      | boundary active offset => simp [branchStep, clipsOf, snapshotClip]
      | append active offset => simp [branchStep, clipsOf]
  | idle idleMs nowMs => exact iff_of_true (drain_nonempty (by simp)) trivial
  | flush => exact iff_of_true (drain_nonempty (by simp)) trivial

/-- The clips of a run all hold bytes exactly when none of its records closes an empty window. -/
theorem clips_nonempty_iff (clipMs : Int) (fsm : SmFsm) (calls : List FsmCall) :
    (∀ clip ∈ clipsOfRun clipMs fsm calls, 0 < clip.totalLength) ↔
      Mealy.Along (callStep clipMs) (ClosesPending clipMs) fsm calls := by
  have same : (fun fsm call => ∀ clip ∈ clipsOf (callStep clipMs fsm call).2,
      0 < clip.totalLength) = ClosesPending clipMs := by
    funext fsm call
    exact propext (callStep_nonempty_iff clipMs fsm call)
  rw [forall_clips_iff_along, same]

/-- A continuous window is cut exactly at its end, and a record without byte rate follows one
window later: a complete clip of no bytes is emitted. -/
theorem exact_cut_then_boundary_empty :
    (∀ call ∈ [FsmCall.record (continuousRecord 1 0 4 0 4) 10, .record (dataRecord 2 4 4 2000) 20,
        .flush], call.Satisfies Payload) ∧
      ¬ ∀ clip ∈ clipsOfRun 1000 smFsmReset [.record (continuousRecord 1 0 4 0 4) 10,
        .record (dataRecord 2 4 4 2000) 20, .flush], 0 < clip.totalLength := by
  decide

/-- What is left of a window, or extends it without completing it, ends no earlier than
the window starts. -/
def EndsInWindow (clipMs : Int) (fsm : SmFsm) : FsmCall → Prop
  | .record rec _ =>
      recordBranch clipMs fsm rec = .append ∨
          (recordBranch clipMs fsm rec = .extend ∧
            (windowBytes clipMs fsm = 0 ∨
              u64Add fsm.totalLength rec.length < windowBytes clipMs fsm)) →
        fsm.startTsMs ≤ rec.tsMs
  | .idle _ _ | .flush => True

instance (clipMs : Int) (fsm : SmFsm) : (call : FsmCall) → Decidable (EndsInWindow clipMs fsm call)
  | .record rec _ => inferInstanceAs (Decidable (_ ∨ _ → fsm.startTsMs ≤ rec.tsMs))
  | .idle _ _ | .flush => isTrue trivial

/-- The pending window ends no earlier than it starts. -/
def Ordered (fsm : SmFsm) : Prop := fsm.active = true → fsm.startTsMs ≤ fsm.endTsMs

private theorem full_ordered {clipMs : Int} (positive : 0 < clipMs) {fsm : SmFsm}
    (full : Full clipMs fsm) :
    (∀ clip ∈ clipsOf (maybeEmitContinuousWindow fsm clipMs).2, clip.startTsMs ≤ clip.endTsMs) ∧
      Ordered (maybeEmitContinuousWindow fsm clipMs).1 := by
  rw [maybeEmit_full full]
  refine ⟨?_, fun _ => ?_⟩
  · simp only [clipsOf, List.mem_singleton, forall_eq, snapshotContinuousClip, snapshotClip]
    omega
  · simp [cutContinuousWindow]

private theorem window_ordered {clipMs : Int} (positive : 0 < clipMs) {fsm : SmFsm}
    (short : ¬ Full clipMs fsm → Ordered fsm) :
    (∀ clip ∈ clipsOf (maybeEmitContinuousWindow fsm clipMs).2, clip.startTsMs ≤ clip.endTsMs) ∧
      Ordered (maybeEmitContinuousWindow fsm clipMs).1 := by
  by_cases full : Full clipMs fsm
  · exact full_ordered positive full
  · rw [maybeEmit_short full]
    exact ⟨by simp [clipsOf], short full⟩

private theorem snapshot_ordered {fsm : SmFsm} (ordered : Ordered fsm)
    (active : fsm.active = true) :
    (snapshotClip fsm).startTsMs ≤ (snapshotClip fsm).endTsMs := ordered active

/-- From an ordered window, a record that ends in its window gives ordered clips and leaves an
ordered window behind. -/
theorem record_ordered {clipMs nowMs : Int} (positive : 0 < clipMs) {fsm : SmFsm}
    {rec : SmMetaRecord} (ordered : Ordered fsm)
    (within : EndsInWindow clipMs fsm (.record rec nowMs)) :
    (∀ clip ∈ clipsOf (callStep clipMs fsm (.record rec nowMs)).2,
        clip.startTsMs ≤ clip.endTsMs) ∧
      Ordered (callStep clipMs fsm (.record rec nowMs)).1 := by
  have taken := recordBranch_takes clipMs fsm rec
  simp only [EndsInWindow] at within
  simp only [callStep, processRecord_branch]
  generalize recordBranch clipMs fsm rec = branch at taken within ⊢
  have opened : Ordered (startClip rec nowMs) := fun _ => le_refl rec.tsMs
  cases taken with
  | ignore invalid => exact ⟨by simp [branchStep, clipsOf], ordered⟩
  | restart empty => exact window_ordered positive fun _ => opened
  | late => exact ⟨by simp [branchStep, clipsOf], ordered⟩
  | gap active pending =>
      refine ⟨?_, opened⟩
      simpa [branchStep, clipsOf] using snapshot_ordered ordered active
  | extend active offset compatible =>
      apply window_ordered positive
      intro short _
      have continuous := continuous_of_compatible compatible
      -- the window is not complete with this record
      apply within
      refine .inr ⟨rfl, ?_⟩
      by_contra complete
      apply short
      refine ⟨continuous, ?_, ?_⟩
      · simp only [windowBytes, appendRecord] at complete ⊢
        omega
      · simp only [windowBytes, appendRecord] at complete ⊢
        omega
  | boundary active offset =>
      refine ⟨?_, opened⟩
      simpa [branchStep, clipsOf] using snapshot_ordered ordered active
  | append active offset =>
      refine ⟨by simp [branchStep, clipsOf], fun _ => ?_⟩
      exact within (.inl rfl)

private theorem reset_ordered : Ordered smFsmReset := by
  intro active
  simp [smFsmReset] at active

private theorem drain_ordered {clipMs : Int} {fsm : SmFsm} {call : FsmCall}
    (ordered : Ordered fsm) (drain : ∀ rec nowMs, call ≠ .record rec nowMs) :
    (∀ clip ∈ clipsOf (callStep clipMs fsm call).2, clip.startTsMs ≤ clip.endTsMs) ∧
      Ordered (callStep clipMs fsm call).1 := by
  refine ⟨?_, drain_preserves Ordered reset_ordered ordered drain⟩
  intro clip emitted
  obtain ⟨active, _, rfl⟩ := drain_clip drain emitted
  exact snapshot_ordered ordered active

/-- No clip of a run has a negative duration if every record that leaves the pending window
incomplete lies behind the start of that window. -/
theorem clip_durations_nonneg {clipMs : Int} (positive : 0 < clipMs) (calls : List FsmCall)
    (within : Mealy.Along (callStep clipMs) (EndsInWindow clipMs) smFsmReset calls) :
    ∀ clip ∈ clipsOfRun clipMs smFsmReset calls,
      clip.startTsMs ≤ clip.endTsMs ∧ 0 ≤ clip.endTsMs - clip.startTsMs := by
  have ordered := (Mealy.along_of_along (callStep clipMs)
    (fun fsm call => ∀ clip ∈ clipsOf (callStep clipMs fsm call).2,
      clip.startTsMs ≤ clip.endTsMs) Ordered
    (fun fsm call kept here => by
      cases call with
      | record rec nowMs => exact record_ordered positive kept here
      | idle idleMs nowMs => exact drain_ordered kept (by simp)
      | flush => exact drain_ordered kept (by simp)) reset_ordered within).1
  intro clip emitted
  have forward := (forall_clips_iff_along _ clipMs smFsmReset calls).mpr ordered clip emitted
  exact ⟨forward, by omega⟩

/-- A cut in the middle of a record, then a record behind the new start of the window. -/
theorem clip_durations_nonneg_after_cut :
    (clipsOfRun 1000 smFsmReset [.record (continuousRecord 1 0 5 0 4) 10,
        .record (continuousRecord 2 5 1 1250 4) 20, .idle 50 100]).map
        (fun clip => clip.endTsMs - clip.startTsMs) = [1000, 250] ∧
      ∀ clip ∈ clipsOfRun 1000 smFsmReset [.record (continuousRecord 1 0 5 0 4) 10,
        .record (continuousRecord 2 5 1 1250 4) 20, .idle 50 100],
        clip.startTsMs ≤ clip.endTsMs ∧ 0 ≤ clip.endTsMs - clip.startTsMs :=
  ⟨by decide, clip_durations_nonneg (by decide) _ (by decide)⟩

/-- Five bytes a second, one byte a record, every byte stamped with the time at which it lies.
The cut of two bytes moves the start of the window by 500 ms, past the third byte at 400 ms. -/
theorem rounded_cut_makes_negative_duration :
    ((acceptedInRun 500 smFsmReset [.record (continuousRecord 1 0 1 0 5) 10,
          .record (continuousRecord 2 1 1 200 5) 20, .record (continuousRecord 3 2 1 400 5) 30,
          .flush]).map SmMetaRecord.tsMs).Pairwise (· ≤ ·) ∧
      ¬ ∀ clip ∈ clipsOfRun 500 smFsmReset [.record (continuousRecord 1 0 1 0 5) 10,
          .record (continuousRecord 2 1 1 200 5) 20, .record (continuousRecord 3 2 1 400 5) 30,
          .flush], clip.startTsMs ≤ clip.endTsMs := by
  decide

end StreamDataPipeline.StreamMerge.ClipShape
