/- When a full continuous window stays behind in the state. -/

import StreamDataPipeline.StreamMerge.WindowTarget

/-!
Every record can cut one window at most, and a record that opens a window behind a gap
or at a window boundary cuts none.
-/

set_option autoImplicit false
set_option relaxedAutoImplicit false

namespace StreamDataPipeline.StreamMerge.WindowBacklog

open Foundations Foundations.Word Fsm FsmRun Branches WindowTarget

/-- Less than one window is pending, where the stream is divided into windows. -/
def WindowOpen (clipMs : Int) (fsm : SmFsm) : Prop :=
  fsm.active = true → fsm.continuous = true → 0 < windowBytes clipMs fsm →
    fsm.totalLength < windowBytes clipMs fsm

instance (clipMs : Int) (fsm : SmFsm) : Decidable (WindowOpen clipMs fsm) :=
  inferInstanceAs (Decidable (_ → _ → _ → _))

/-- No record leaves a full window pending. -/
def LeavesOpen (clipMs : Int) (fsm : SmFsm) : FsmCall → Prop
  | .record rec nowMs => WindowOpen clipMs (smFsmProcessRecord fsm rec clipMs nowMs).1
  | .idle _ _ | .flush => True

/-- No clip that hands over the pending bytes of a continuous window has a full window. -/
def RemainderShort (clipMs : Int) (fsm : SmFsm) (call : FsmCall) : Prop :=
  fsm.continuous = true → 0 < windowBytes clipMs fsm →
    ∀ clip ∈ clipsOf (callStep clipMs fsm call).2, clip.boundaryMode = .metadata →
      clip.totalLength < windowBytes clipMs fsm

def NoWindowOwed (clipMs : Int) (fsm : SmFsm) (call : FsmCall) : Prop :=
  LeavesOpen clipMs fsm call ∧ RemainderShort clipMs fsm call

instance (clipMs : Int) (fsm : SmFsm) : (call : FsmCall) → Decidable (NoWindowOwed clipMs fsm call)
  | .record _ _ => inferInstanceAs (Decidable (WindowOpen clipMs _ ∧ (_ → _ → _)))
  | .idle _ _ | .flush => inferInstanceAs (Decidable (True ∧ (_ → _ → _)))

/-- The bytes of one window of the stream that the record belongs to. -/
def recordWindow (clipMs : Int) (rec : SmMetaRecord) : Nat :=
  alignedTargetBytes clipMs rec.byteRate (effectiveAlign rec.frameAlign)

/-- How many bytes a record may bring, by the branch that it takes: less than two windows
where one is cut, less than one where none is. -/
def RoomFor (clipMs : Int) (fsm : SmFsm) (rec : SmMetaRecord) : RecordBranch → Prop
  | .ignore | .late => True
  | .restart => rec.continuous = true → 0 < recordWindow clipMs rec →
      rec.length < 2 * recordWindow clipMs rec
  | .gap | .boundary => rec.continuous = true → 0 < recordWindow clipMs rec →
      rec.length < recordWindow clipMs rec
  | .extend => 0 < windowBytes clipMs fsm →
      u64Add fsm.totalLength rec.length < 2 * windowBytes clipMs fsm
  | .append => fsm.continuous = true → 0 < windowBytes clipMs fsm →
      u64Add fsm.totalLength rec.length < windowBytes clipMs fsm

instance (clipMs : Int) (fsm : SmFsm) (rec : SmMetaRecord) :
    (branch : RecordBranch) → Decidable (RoomFor clipMs fsm rec branch)
  | .ignore | .late => isTrue trivial
  | .restart | .gap | .boundary | .append => inferInstanceAs (Decidable (_ → _ → _))
  | .extend => inferInstanceAs (Decidable (_ → _))

def HasRoom (clipMs : Int) (fsm : SmFsm) : FsmCall → Prop
  | .record rec _ => RoomFor clipMs fsm rec (recordBranch clipMs fsm rec)
  | .idle _ _ | .flush => True

instance (clipMs : Int) (fsm : SmFsm) : (call : FsmCall) → Decidable (HasRoom clipMs fsm call)
  | .record rec _ => inferInstanceAs (Decidable (RoomFor clipMs fsm rec _))
  | .idle _ _ | .flush => isTrue trivial

private theorem window_open_iff (clipMs : Int) {fsm : SmFsm} (active : fsm.active = true)
    (word : fsm.totalLength < 2 ^ 64) :
    WindowOpen clipMs (maybeEmitContinuousWindow fsm clipMs).1 ↔
      (fsm.continuous = true → 0 < windowBytes clipMs fsm →
        fsm.totalLength < 2 * windowBytes clipMs fsm) := by
  by_cases full : Full clipMs fsm
  · obtain ⟨continuous, positive, reached⟩ := full
    have rest : (cutContinuousWindow fsm clipMs (windowBytes clipMs fsm)).totalLength =
        fsm.totalLength - windowBytes clipMs fsm := u64Sub_of_le reached word
    rw [maybeEmit_full ⟨continuous, positive, reached⟩]
    constructor
    · intro opened _ _
      have short := opened active continuous positive
      rw [rest] at short
      change _ < windowBytes clipMs fsm at short
      omega
    · intro room _ _ _
      rw [rest]
      change _ < windowBytes clipMs fsm
      have := room continuous positive
      omega
  · rw [maybeEmit_short full]
    have short : fsm.continuous = true → 0 < windowBytes clipMs fsm →
        fsm.totalLength < windowBytes clipMs fsm := by
      intro continuous positive
      by_contra reached
      exact full ⟨continuous, positive, by omega⟩
    constructor
    · intro _ continuous positive
      have := short continuous positive
      omega
    · intro _ _
      exact short

private theorem u64Add_word (a b : Nat) : u64Add a b < 2 ^ 64 := Nat.mod_lt _ (by decide)

/-- From a state that owes no window, a record leaves such a state exactly if it has room. -/
theorem record_leaves_open_iff {clipMs : Int} {fsm : SmFsm} {rec : SmMetaRecord}
    (opened : WindowOpen clipMs fsm) (word : rec.length < 2 ^ 64) (nowMs : Int) :
    LeavesOpen clipMs fsm (.record rec nowMs) ↔ HasRoom clipMs fsm (.record rec nowMs) := by
  have taken := recordBranch_takes clipMs fsm rec
  simp only [LeavesOpen, HasRoom, processRecord_branch]
  generalize recordBranch clipMs fsm rec = branch at taken ⊢
  cases taken with
  | ignore invalid => exact iff_of_true opened trivial
  | restart empty => exact window_open_iff clipMs rfl word
  | late => exact iff_of_true opened trivial
  | gap active pending => exact ⟨fun h => h rfl, fun h _ => h⟩
  | extend active offset compatible =>
      have continuous := continuous_of_compatible compatible
      have still : (appendRecord fsm rec nowMs).active = true := active
      have cut := window_open_iff clipMs still (u64Add_word _ _)
      exact cut.trans ⟨fun h => h continuous, fun h _ => h⟩
  | boundary active offset => exact ⟨fun h => h rfl, fun h _ => h⟩
  | append active offset => exact ⟨fun h => h active, fun h _ => h⟩

private theorem snapshot_short {clipMs : Int} {fsm : SmFsm} (opened : WindowOpen clipMs fsm)
    (active : fsm.active = true) (continuous : fsm.continuous = true)
    (positive : 0 < windowBytes clipMs fsm) :
    (snapshotClip fsm).totalLength < windowBytes clipMs fsm := opened active continuous positive

private theorem cut_not_metadata (clipMs : Int) (fsm : SmFsm) :
    ∀ clip ∈ clipsOf (maybeEmitContinuousWindow fsm clipMs).2, clip.boundaryMode ≠ .metadata := by
  by_cases full : Full clipMs fsm
  · rw [maybeEmit_full full]
    simp [clipsOf, snapshotContinuousClip]
  · rw [maybeEmit_short full]
    simp [clipsOf]

theorem remainder_short {clipMs : Int} {fsm : SmFsm} (opened : WindowOpen clipMs fsm)
    (call : FsmCall) : RemainderShort clipMs fsm call := by
  intro continuous positive clip emitted metadata
  cases call with
  | record rec nowMs =>
      have taken := recordBranch_takes clipMs fsm rec
      simp only [callStep, processRecord_branch] at emitted
      generalize recordBranch clipMs fsm rec = branch at taken emitted
      cases taken with
      | ignore invalid => simp [branchStep, clipsOf] at emitted
      | restart empty => exact absurd metadata (cut_not_metadata _ _ clip emitted)
      | late => simp [branchStep, clipsOf] at emitted
      | gap active pending =>
          rw [List.mem_singleton.mp emitted]
          exact snapshot_short opened active continuous positive
      | extend active offset compatible =>
          exact absurd metadata (cut_not_metadata _ _ clip emitted)
      | boundary active offset =>
          rw [List.mem_singleton.mp emitted]
          exact snapshot_short opened active continuous positive
      | append active offset => simp [branchStep, clipsOf] at emitted
  | idle idleMs nowMs =>
      obtain ⟨active, _, rfl⟩ := drain_clip (by simp) emitted
      exact snapshot_short opened active continuous positive
  | flush =>
      obtain ⟨active, _, rfl⟩ := drain_clip (by simp) emitted
      exact snapshot_short opened active continuous positive

private theorem reset_open (clipMs : Int) : WindowOpen clipMs smFsmReset := by
  intro active
  simp [smFsmReset] at active

theorem call_owes_none_iff {clipMs : Int} {fsm : SmFsm} {call : FsmCall}
    (opened : WindowOpen clipMs fsm) (word : call.Satisfies fun rec => rec.length < 2 ^ 64) :
    (NoWindowOwed clipMs fsm call ↔ HasRoom clipMs fsm call) ∧
      (HasRoom clipMs fsm call → WindowOpen clipMs (callStep clipMs fsm call).1) := by
  have short := remainder_short opened call
  have drained : (∀ rec nowMs, call ≠ .record rec nowMs) →
      WindowOpen clipMs (callStep clipMs fsm call).1 :=
    fun drain => drain_preserves (WindowOpen clipMs) (reset_open clipMs) opened drain
  cases call with
  | record rec nowMs =>
      have leaves := record_leaves_open_iff opened word nowMs
      exact ⟨⟨fun h => leaves.mp h.1, fun h => ⟨leaves.mpr h, short⟩⟩, leaves.mpr⟩
  | idle idleMs nowMs =>
      exact ⟨iff_of_true ⟨trivial, short⟩ trivial, fun _ => drained (by simp)⟩
  | flush => exact ⟨iff_of_true ⟨trivial, short⟩ trivial, fun _ => drained (by simp)⟩

/-- In a run, no record leaves a full window pending, and nothing of the length of a window is
handed over as a remainder, exactly if every record has room. Lengths are 64-bit words, and so
are the products of the window with the byte rates, so that each target is the one that the
source computes. -/
theorem no_window_owed_iff (clipMs : Int) (calls : List FsmCall)
    (words : ∀ call ∈ calls, call.Satisfies fun rec => rec.length < 2 ^ 64)
    (rates : ∀ call ∈ calls, call.Satisfies fun rec => RateFits clipMs rec.byteRate) :
    (Mealy.Along (callStep clipMs) (NoWindowOwed clipMs) smFsmReset calls ↔
      Mealy.Along (callStep clipMs) (HasRoom clipMs) smFsmReset calls) ∧
    Mealy.Along (callStep clipMs)
      (fun fsm call => ExactTarget clipMs (callStep clipMs fsm call).1) smFsmReset calls := by
  refine ⟨?_, run_exact_target rates⟩
  exact Mealy.along_iff_along (callStep clipMs) (WindowOpen clipMs)
    (fun call => call.Satisfies fun rec => rec.length < 2 ^ 64)
    (fun _ _ opened word => (call_owes_none_iff opened word).1)
    (fun _ _ opened word => (call_owes_none_iff opened word).2)
    (reset_open clipMs) words

/-- A record of one and a half windows, one that completes the second window, and a gap. -/
theorem no_window_owed_of_short_records :
    Mealy.Along (callStep 1000) (NoWindowOwed 1000) smFsmReset
      [.record (continuousRecord 1 0 6 0 4) 10, .record (continuousRecord 2 6 3 1500 4) 20,
        .record (continuousRecord 9 40 3 9000 4) 30, .flush] :=
  (no_window_owed_iff 1000 _ (by decide) (by decide)).1.mpr (by decide)

/-- Two and a half windows in one record: one is cut, one and a half stay pending. -/
theorem long_record_leaves_full_window :
    ¬ Mealy.Along (callStep 1000) (NoWindowOwed 1000) smFsmReset
      [.record (continuousRecord 1 0 10 0 4) 10] := by
  decide

end StreamDataPipeline.StreamMerge.WindowBacklog
