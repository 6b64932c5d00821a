/- The records that the pending window was made of. -/

import Mathlib.Data.List.Nodup
import Mathlib.Data.List.Pairwise
import StreamDataPipeline.StreamMerge.Branches

/-!
The records taken in since the last `start_clip` are kept beside the state machine. A cut
does not remove them: it moves the start of the window along their bytes.
-/

set_option autoImplicit false
set_option relaxedAutoImplicit false

namespace StreamDataPipeline.StreamMerge.WindowMembers

open Foundations Foundations.Word Fsm FsmRun ByteConservation Branches

structure Windowed where
  fsm : SmFsm
  members : List SmMetaRecord

def windowedReset : Windowed := ⟨smFsmReset, []⟩

def membersAfter (members : List SmMetaRecord) (rec : SmMetaRecord) :
    RecordBranch → List SmMetaRecord
  | .ignore | .late => members
  | .restart | .gap | .boundary => [rec]
  | .extend | .append => members ++ [rec]

def membersStep (clipMs : Int) (w : Windowed) (call : FsmCall) : List SmMetaRecord :=
  match call with
  | .record rec _ => membersAfter w.members rec (recordBranch clipMs w.fsm rec)
  | .idle _ _ | .flush => if (callStep clipMs w.fsm call).2 = .none then w.members else []

def windowedStep (clipMs : Int) (w : Windowed) (call : FsmCall) : Windowed × SmFsmAction :=
  (⟨(callStep clipMs w.fsm call).1, membersStep clipMs w call⟩, (callStep clipMs w.fsm call).2)

/-- A record that is marked valid has gone through the reader. -/
def Validated (rec : SmMetaRecord) : Prop := rec.valid = true → InReaderRange rec

instance : DecidablePred Validated := fun _ => inferInstanceAs (Decidable (_ → _))

/-- The window lies on the bytes of its members, some whole frames behind the first one. -/
structure OnMembers (fsm : SmFsm) (first : SmMetaRecord) (later : List SmMetaRecord) : Prop where
  continuous : fsm.continuous = first.continuous
  byteRate : fsm.byteRate = first.byteRate
  frameAlign : fsm.frameAlign = effectiveAlign first.frameAlign
  bytes : (first :: later).flatMap recordBytes =
    byteRange first.offset (fsm.expectedOffset - first.offset)
  behind : first.offset ≤ fsm.startOffset
  frames : fsm.frameAlign ∣ fsm.startOffset - first.offset

structure Tracked (w : Windowed) : Prop where
  tiled : Tiled w.fsm
  metadata : w.fsm.boundaryMode = .metadata
  members : w.fsm.active = true →
    ∃ first later, w.members = first :: later ∧ OnMembers w.fsm first later

theorem reset_tracked : Tracked windowedReset where
  tiled := fun active => by simp [windowedReset, smFsmReset] at active
  metadata := rfl
  members := fun active => by simp [windowedReset, smFsmReset] at active

theorem startClip_tracked {rec : SmMetaRecord} (range : InReaderRange rec) (nowMs : Int) :
    Tracked ⟨startClip rec nowMs, [rec]⟩ where
  tiled := startClip_tiled range nowMs
  metadata := rfl
  members := by
    intro _
    refine ⟨rec, [], rfl, rfl, rfl, rfl, ?_, le_refl _, ?_⟩
    · simp [startClip, (expectedOffset_exact range).1, recordBytes]
    · simp [startClip]

theorem appendRecord_tracked {w : Windowed} {rec : SmMetaRecord} (tracked : Tracked w)
    (range : InReaderRange rec) (active : w.fsm.active = true)
    (offset : rec.offset = w.fsm.expectedOffset) (nowMs : Int) :
    Tracked ⟨appendRecord w.fsm rec nowMs, w.members ++ [rec]⟩ where
  tiled := appendRecord_tiled tracked.tiled active range offset nowMs
  metadata := rfl
  members := by
    intro _
    obtain ⟨first, later, members, on⟩ := tracked.members active
    obtain ⟨ends, _⟩ := tracked.tiled active
    have behind := on.behind
    refine ⟨first, later ++ [rec], by rw [members, List.cons_append],
      on.continuous, on.byteRate, on.frameAlign, ?_, behind, on.frames⟩
    have next : (appendRecord w.fsm rec nowMs).expectedOffset - first.offset =
        (w.fsm.expectedOffset - first.offset) + rec.length := by
      simp only [appendRecord, (expectedOffset_exact range).1]
      omega
    have meets : rec.offset = first.offset + (w.fsm.expectedOffset - first.offset) := by omega
    rw [next, ← byteRange_append, ← on.bytes, ← meets]
    simp [recordBytes]

/-- The ways in which the members change before a cut is attempted. -/
inductive Moves (w : Windowed) : Windowed → Prop
  | keep : Moves w w
  | reset : Moves w windowedReset
  | start {rec : SmMetaRecord} (range : InReaderRange rec) (nowMs : Int) :
      Moves w ⟨startClip rec nowMs, [rec]⟩
  | append {rec : SmMetaRecord} (active : w.fsm.active = true) (range : InReaderRange rec)
      (offset : rec.offset = w.fsm.expectedOffset) (nowMs : Int) :
      Moves w ⟨appendRecord w.fsm rec nowMs, w.members ++ [rec]⟩

theorem Moves.tracked {w next : Windowed} (moves : Moves w next) (tracked : Tracked w) :
    Tracked next := by
  cases moves with
  | keep => exact tracked
  | reset => exact reset_tracked
  | start range nowMs => exact startClip_tracked range nowMs
  | append active range offset nowMs => exact appendRecord_tracked tracked range active offset nowMs

theorem frames_of_window (clipMs : Int) (fsm : SmFsm) : fsm.frameAlign ∣ windowBytes clipMs fsm ∨
    fsm.frameAlign = 0 := by
  unfold windowBytes alignedTargetBytes
  dsimp only
  split_ifs with stopped frames
  · exact .inl (Nat.dvd_zero _)
  · exact .inl (Nat.dvd_sub_mod _)
  · rcases Nat.eq_zero_or_pos fsm.frameAlign with zero | positive
    · exact .inr zero
    · have one : fsm.frameAlign = 1 := by omega
      rw [one]
      exact .inl (Nat.one_dvd _)

theorem effectiveAlign_pos (frameAlign : Nat) : 0 < effectiveAlign frameAlign := by
  unfold effectiveAlign
  split_ifs <;> omega

theorem OnMembers.window_frames {fsm : SmFsm} {first : SmMetaRecord} {later : List SmMetaRecord}
    (on : OnMembers fsm first later) (clipMs : Int) :
    fsm.frameAlign ∣ windowBytes clipMs fsm := by
  apply (frames_of_window clipMs fsm).resolve_right
  rw [on.frameAlign]
  exact Nat.ne_of_gt (effectiveAlign_pos _)

theorem mem_recordBytes {rec : SmMetaRecord} {position : Nat} :
    position ∈ recordBytes rec ↔ rec.offset ≤ position ∧ position < rec.offset + rec.length := by
  rw [recordBytes, byteRange, List.mem_range'_1]

theorem OnMembers.record_of_byte {fsm : SmFsm} {first : SmMetaRecord} {later : List SmMetaRecord}
    (on : OnMembers fsm first later) {r r' : SmMetaRecord} (mem : r ∈ first :: later)
    (mem' : r' ∈ first :: later) {position : Nat} (here : position ∈ recordBytes r)
    (here' : position ∈ recordBytes r') : r = r' := by
  have distinct : ((first :: later).flatMap recordBytes).Nodup := by
    rw [on.bytes]
    exact List.nodup_range'
  have apart := (List.nodup_flatMap.mp distinct).2
  by_contra different
  have symmetric : Std.Symm (Function.onFun List.Disjoint recordBytes) :=
    ⟨fun _ _ disjoint _ there here => disjoint here there⟩
  exact apart.forall mem mem' different here here'

theorem OnMembers.record_at {fsm : SmFsm} {first : SmMetaRecord} {later : List SmMetaRecord}
    (on : OnMembers fsm first later) (ends : fsm.startOffset + fsm.totalLength = fsm.expectedOffset)
    {position : Nat} (low : fsm.startOffset ≤ position)
    (high : position < fsm.startOffset + fsm.totalLength) :
    ∃ r ∈ first :: later, position ∈ recordBytes r := by
  have behind := on.behind
  have inside : position ∈ (first :: later).flatMap recordBytes := by
    rw [on.bytes, byteRange, List.mem_range'_1]
    omega
  exact List.mem_flatMap.mp inside

theorem window_tracked {w : Windowed} (tracked : Tracked w) (active : w.fsm.active = true)
    (clipMs : Int) : Tracked ⟨(maybeEmitContinuousWindow w.fsm clipMs).1, w.members⟩ := by
  by_cases full : Full clipMs w.fsm
  · have tiled := (window_conserves tracked.tiled active (maybeEmit_step w.fsm clipMs)).1
    have moved := (cut_exact tracked.tiled active full).1
    rw [maybeEmit_full full] at tiled ⊢
    refine ⟨tiled, rfl, fun _ => ?_⟩
    obtain ⟨first, later, members, on⟩ := tracked.members active
    have behind := on.behind
    refine ⟨first, later, members, on.continuous, on.byteRate, on.frameAlign, on.bytes, ?_, ?_⟩
    · simp only [cutContinuousWindow, moved]
      omega
    · simp only [cutContinuousWindow, moved]
      rw [Nat.sub_add_comm behind]
      exact Nat.dvd_add on.frames (on.window_frames clipMs)
  · rw [maybeEmit_short full]
    exact tracked

/-- The window in which a call attempts a cut, if it attempts one. -/
def attempted (clipMs : Int) (w : Windowed) : FsmCall → Option Windowed
  | .record rec nowMs => match recordBranch clipMs w.fsm rec with
    | .restart => some ⟨startClip rec nowMs, [rec]⟩
    | .extend => some ⟨appendRecord w.fsm rec nowMs, w.members ++ [rec]⟩
    | _ => none
  | .idle _ _ | .flush => none

theorem range_of_branch (clipMs : Int) (fsm : SmFsm) {rec : SmMetaRecord}
    (validated : Validated rec) (branch : RecordBranch)
    (taken : recordBranch clipMs fsm rec = branch) (other : branch ≠ .ignore) :
    InReaderRange rec := by
  apply validated
  by_contra invalid
  exact other (taken ▸ (recordBranch_ignore_iff clipMs fsm rec).mpr (by simpa using invalid))

theorem attempted_moves {clipMs : Int} {w grown : Windowed} {call : FsmCall}
    (validated : call.Satisfies Validated) (attempt : attempted clipMs w call = some grown) :
    Moves w grown ∧ grown.fsm.active = true ∧
      windowedStep clipMs w call =
        (⟨(maybeEmitContinuousWindow grown.fsm clipMs).1, grown.members⟩,
          (maybeEmitContinuousWindow grown.fsm clipMs).2) := by
  cases call with
  | idle idleMs nowMs => cases attempt
  | flush => cases attempt
  | record rec nowMs =>
      have taken := recordBranch_takes clipMs w.fsm rec
      have range := range_of_branch clipMs w.fsm validated
      simp only [attempted] at attempt
      simp only [windowedStep, membersStep, callStep, processRecord_branch]
      generalize recordBranch clipMs w.fsm rec = branch at taken range attempt ⊢
      cases taken with
      | restart empty =>
          cases attempt
          exact ⟨.start (range _ rfl (by simp)) nowMs, rfl, rfl⟩
      | extend active offset compatible =>
          cases attempt
          exact ⟨.append active (range _ rfl (by simp)) offset nowMs, active, rfl⟩
      | ignore invalid => cases attempt
      | late => cases attempt
      | gap active pending => cases attempt
      | boundary active offset => cases attempt
      | append active offset => cases attempt

private theorem drain_unattempted {clipMs : Int} {w : Windowed} {call : FsmCall}
    (drain : ∀ rec nowMs, call ≠ .record rec nowMs) :
    Moves w (windowedStep clipMs w call).1 ∧
      ∀ clip ∈ clipsOf (callStep clipMs w.fsm call).2, clip = snapshotClip w.fsm := by
  have same : membersStep clipMs w call =
      if (callStep clipMs w.fsm call).2 = .none then w.members else [] := by
    rcases FsmCall.idle_or_flush drain with ⟨_, _, rfl⟩ | rfl <;> rfl
  refine ⟨?_, fun clip emitted => (drain_clip drain emitted).2.2⟩
  rcases drain_answers clipMs w.fsm call drain with kept | ⟨emits, reset, _⟩
  · rw [windowedStep, same, kept]
    exact .keep
  · rw [windowedStep, same, if_neg emits, reset]
    exact .reset

theorem unattempted_moves {clipMs : Int} {w : Windowed} {call : FsmCall}
    (validated : call.Satisfies Validated) (attempt : attempted clipMs w call = none) :
    Moves w (windowedStep clipMs w call).1 ∧
      ∀ clip ∈ clipsOf (callStep clipMs w.fsm call).2, clip = snapshotClip w.fsm := by
  cases call with
  | idle idleMs nowMs => exact drain_unattempted (by simp)
  | flush => exact drain_unattempted (by simp)
  | record rec nowMs =>
      have taken := recordBranch_takes clipMs w.fsm rec
      have range := range_of_branch clipMs w.fsm validated
      simp only [attempted] at attempt
      simp only [windowedStep, membersStep, callStep, processRecord_branch]
      generalize recordBranch clipMs w.fsm rec = branch at taken range attempt ⊢
      cases taken with
      | restart empty => cases attempt
      | extend active offset compatible => cases attempt
      | ignore invalid => exact ⟨.keep, by simp [branchStep, clipsOf]⟩
      | late => exact ⟨.keep, by simp [branchStep, clipsOf]⟩
      | gap active pending =>
          exact ⟨.start (range _ rfl (by simp)) nowMs, by simp [branchStep, clipsOf]⟩
      | boundary active offset =>
          exact ⟨.start (range _ rfl (by simp)) nowMs, by simp [branchStep, clipsOf]⟩
      | append active offset =>
          exact ⟨.append active (range _ rfl (by simp)) offset nowMs,
            by simp [branchStep, clipsOf]⟩

theorem step_tracked (clipMs : Int) {w : Windowed} {call : FsmCall} (tracked : Tracked w)
    (validated : call.Satisfies Validated) : Tracked (windowedStep clipMs w call).1 := by
  cases attempt : attempted clipMs w call with
  | none => exact (unattempted_moves validated attempt).1.tracked tracked
  | some grown =>
      obtain ⟨moves, active, step⟩ := attempted_moves validated attempt
      rw [step]
      exact window_tracked (moves.tracked tracked) active clipMs

/-- A clip with the continuous label is one full window, cut off the front of the window in
which the cut was attempted. -/
theorem continuous_clip {clipMs : Int} {w : Windowed} {call : FsmCall} (tracked : Tracked w)
    (validated : call.Satisfies Validated) {clip : SmClipRecord}
    (emitted : clip ∈ clipsOf (callStep clipMs w.fsm call).2)
    (label : clip.boundaryMode = .continuousByteRange) :
    ∃ grown, attempted clipMs w call = some grown ∧ Full clipMs grown.fsm ∧
      clip = snapshotContinuousClip grown.fsm clipMs (windowBytes clipMs grown.fsm) ∧
      (windowedStep clipMs w call).1 =
        ⟨cutContinuousWindow grown.fsm clipMs (windowBytes clipMs grown.fsm), grown.members⟩ := by
  cases attempt : attempted clipMs w call with
  | none =>
      have metadata : clip.boundaryMode = .metadata := by
        rw [(unattempted_moves validated attempt).2 clip emitted]
        exact tracked.metadata
      rw [metadata] at label
      cases label
  | some grown =>
      obtain ⟨-, -, step⟩ := attempted_moves validated attempt
      have action : (windowedStep clipMs w call).2 =
          (maybeEmitContinuousWindow grown.fsm clipMs).2 := by rw [step]
      change clip ∈ clipsOf (windowedStep clipMs w call).2 at emitted
      rw [action] at emitted
      by_cases full : Full clipMs grown.fsm
      · rw [maybeEmit_full full] at emitted step
        exact ⟨grown, rfl, full, List.mem_singleton.mp emitted, congrArg Prod.fst step⟩
      · rw [maybeEmit_short full] at emitted
        cases emitted

theorem members_of_step (clipMs : Int) (w : Windowed) (call : FsmCall) {rec : SmMetaRecord}
    (mem : rec ∈ (windowedStep clipMs w call).1.members) :
    rec ∈ w.members ∨ rec ∈ acceptedBy (call, (callStep clipMs w.fsm call).2) := by
  have drained : membersStep clipMs w call =
      (if (callStep clipMs w.fsm call).2 = .none then w.members else []) → rec ∈ w.members := by
    intro same
    simp only [windowedStep, same] at mem
    split_ifs at mem with kept
    · exact mem
    · cases mem
  cases call with
  | idle idleMs nowMs => exact .inl (drained rfl)
  | flush => exact .inl (drained rfl)
  | record new nowMs =>
      have ignored := recordBranch_ignore_iff clipMs w.fsm new
      have quiet : ∀ fsm, (maybeEmitContinuousWindow fsm clipMs).2 ≠ .rejectLate := by
        intro fsm
        have window := maybeEmit_step fsm clipMs
        generalize maybeEmitContinuousWindow fsm clipMs = next at window
        cases window <;> simp
      simp only [windowedStep, membersStep, callStep, processRecord_branch, acceptedBy] at mem ⊢
      generalize recordBranch clipMs w.fsm new = branch at ignored mem ⊢
      cases branch <;> simp_all [membersAfter, branchStep, List.mem_append]

/-- The members of a window are accepted records of the run. -/
theorem members_accepted (clipMs : Int) (w : Windowed) (calls : List FsmCall)
    {rec : SmMetaRecord} (mem : rec ∈ (Mealy.run (windowedStep clipMs) w calls).1.members) :
    rec ∈ w.members ∨ rec ∈ acceptedInRun clipMs w.fsm calls := by
  induction calls generalizing w with
  | nil => exact .inl mem
  | cons call calls ih =>
      have unfolded : acceptedInRun clipMs w.fsm (call :: calls) =
          acceptedBy (call, (callStep clipMs w.fsm call).2) ++
            acceptedInRun clipMs (windowedStep clipMs w call).1.fsm calls := rfl
      rw [unfolded, List.mem_append]
      rcases ih (windowedStep clipMs w call).1 mem with held | later
      · rcases members_of_step clipMs w call held with old | new
        · exact .inl old
        · exact .inr (.inl new)
      · exact .inr (.inr later)

end StreamDataPipeline.StreamMerge.WindowMembers
