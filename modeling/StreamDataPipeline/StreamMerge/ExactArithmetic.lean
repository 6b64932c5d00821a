/- The byte arithmetic of the clip state machine never wraps. -/

import StreamDataPipeline.StreamMerge.WindowMembers

/-!
The checked functions are those of the state machine with every 64-bit addition and
subtraction made to fail where it would wrap.
-/

set_option autoImplicit false
set_option relaxedAutoImplicit false

namespace StreamDataPipeline.StreamMerge.ExactArithmetic

open Foundations Foundations.Word Fsm FsmRun ByteConservation Branches WindowMembers

/-- The target itself is the exact integer. -/
def checkedTargetBytes (clipMs : Int) (byteRate frameAlign : Nat) : Option Nat :=
  if clipMs ≤ 0 ∨ byteRate = 0 then some 0
  else
    let target := clipMs.toNat * byteRate / 1000
    if 1 < frameAlign then checkedSub target (target % frameAlign) else some target

def checkedStartClip (rec : SmMetaRecord) (nowMs : Int) : Option SmFsm := do
  let expectedSeq ← checkedAdd rec.seq 1
  let expectedOffset ← checkedAdd rec.offset rec.length
  some { startClip rec nowMs with expectedSeq := expectedSeq, expectedOffset := expectedOffset }

def checkedAppendRecord (fsm : SmFsm) (rec : SmMetaRecord) (nowMs : Int) : Option SmFsm := do
  let totalLength ← checkedAdd fsm.totalLength rec.length
  let expectedSeq ← checkedAdd rec.seq 1
  let expectedOffset ← checkedAdd rec.offset rec.length
  some { appendRecord fsm rec nowMs with
    totalLength := totalLength
    expectedSeq := expectedSeq
    expectedOffset := expectedOffset }

def checkedMaybeEmit (fsm : SmFsm) (clipMs : Int) : Option (SmFsm × SmFsmAction) := do
  let targetBytes ← checkedTargetBytes clipMs fsm.byteRate fsm.frameAlign
  if !fsm.continuous ∨ targetBytes = 0 ∨ fsm.totalLength < targetBytes then some (fsm, .none)
  else
    let startOffset ← checkedAdd fsm.startOffset targetBytes
    let totalLength ← checkedSub fsm.totalLength targetBytes
    some
      ({ cutContinuousWindow fsm clipMs targetBytes with
          startOffset := startOffset
          totalLength := totalLength },
        .emitComplete (snapshotContinuousClip fsm clipMs targetBytes))

def checkedProcessRecord (fsm : SmFsm) (rec : SmMetaRecord) (clipMs nowMs : Int) :
    Option (SmFsm × SmFsmAction) :=
  if !rec.valid then some (fsm, .none)
  else if !fsm.active then do checkedMaybeEmit (← checkedStartClip rec nowMs) clipMs
  else if rec.seq < fsm.expectedSeq then some (fsm, .rejectLate)
  else if fsm.totalLength = 0 ∧ Discontiguous fsm rec then do
    checkedMaybeEmit (← checkedStartClip rec nowMs) clipMs
  else if Discontiguous fsm rec then do
    some (← checkedStartClip rec nowMs, .emitPartial (snapshotClip fsm))
  else if continuousCompatible fsm rec then do
    checkedMaybeEmit (← checkedAppendRecord fsm rec nowMs) clipMs
  else if clipMs ≤ rec.tsMs - fsm.startTsMs then do
    some (← checkedStartClip rec nowMs, .emitComplete (snapshotClip fsm))
  else do some (← checkedAppendRecord fsm rec nowMs, .none)

/-- An idle check and a flush compute with times only. -/
def checkedCallStep (clipMs : Int) (fsm : SmFsm) : FsmCall → Option (SmFsm × SmFsmAction)
  | .record rec nowMs => checkedProcessRecord fsm rec clipMs nowMs
  | .idle idleMs nowMs => some (smFsmCheckIdle fsm idleMs nowMs)
  | .flush => some (smFsmFlushFinal fsm)

structure Bounded (fsm : SmFsm) : Prop where
  tiled : Tiled fsm
  seq : fsm.active = true → fsm.expectedSeq ≤ 2 ^ 53

theorem reset_bounded : Bounded smFsmReset where
  tiled := fun active => by simp [smFsmReset] at active
  seq := fun active => by simp [smFsmReset] at active

theorem nextSeq_le {rec : SmMetaRecord} (range : InReaderRange rec) :
    u64Add rec.seq 1 ≤ 2 ^ 53 := by
  have bound := range.seq_le
  rw [expectedSeq_exact range]
  simp only [maxSafeInteger] at bound
  omega

theorem startClip_bounded {rec : SmMetaRecord} (range : InReaderRange rec) (nowMs : Int) :
    Bounded (startClip rec nowMs) :=
  ⟨startClip_tiled range nowMs, fun _ => nextSeq_le range⟩

theorem appendRecord_bounded {fsm : SmFsm} {rec : SmMetaRecord} (bounded : Bounded fsm)
    (active : fsm.active = true) (range : InReaderRange rec)
    (offset : rec.offset = fsm.expectedOffset) (nowMs : Int) :
    Bounded (appendRecord fsm rec nowMs) :=
  ⟨appendRecord_tiled bounded.tiled active range offset nowMs, fun _ => nextSeq_le range⟩

theorem window_bounded {fsm : SmFsm} (bounded : Bounded fsm) (active : fsm.active = true)
    (clipMs : Int) : Bounded (maybeEmitContinuousWindow fsm clipMs).1 := by
  refine ⟨(window_conserves bounded.tiled active (maybeEmit_step fsm clipMs)).1, ?_⟩
  by_cases full : Full clipMs fsm
  · rw [maybeEmit_full full]
    exact bounded.seq
  · rw [maybeEmit_short full]
    exact bounded.seq

theorem checkedTargetBytes_eq (clipMs : Int) (byteRate frameAlign : Nat) :
    checkedTargetBytes clipMs byteRate frameAlign =
      some (alignedTargetBytes clipMs byteRate frameAlign) := by
  unfold checkedTargetBytes alignedTargetBytes
  dsimp only
  split_ifs
  · rfl
  · rw [checkedSub, if_pos (Nat.mod_le _ _)]
  · rfl

theorem nextSeq_checked {rec : SmMetaRecord} (range : InReaderRange rec) :
    checkedAdd rec.seq 1 = some (u64Add rec.seq 1) := by
  apply checkedAdd_of_lt
  have bound := range.seq_le
  simp only [maxSafeInteger] at bound
  omega

theorem nextOffset_checked {rec : SmMetaRecord} (range : InReaderRange rec) :
    checkedAdd rec.offset rec.length = some (u64Add rec.offset rec.length) := by
  apply checkedAdd_of_lt
  have bound := (expectedOffset_exact range).2
  simp only [maxSafeInteger] at bound
  omega

theorem checkedStartClip_eq {rec : SmMetaRecord} (range : InReaderRange rec) (nowMs : Int) :
    checkedStartClip rec nowMs = some (startClip rec nowMs) := by
  simp [checkedStartClip, nextSeq_checked range, nextOffset_checked range, startClip]

theorem checkedAppendRecord_eq {fsm : SmFsm} {rec : SmMetaRecord} (bounded : Bounded fsm)
    (active : fsm.active = true) (range : InReaderRange rec)
    (offset : rec.offset = fsm.expectedOffset) (nowMs : Int) :
    checkedAppendRecord fsm rec nowMs = some (appendRecord fsm rec nowMs) := by
  have total :
      checkedAdd fsm.totalLength rec.length = some (u64Add fsm.totalLength rec.length) := by
    apply checkedAdd_of_lt
    obtain ⟨ends, -⟩ := bounded.tiled active
    have bound := (expectedOffset_exact range).2
    simp only [maxSafeInteger] at bound
    omega
  simp [checkedAppendRecord, total, nextSeq_checked range, nextOffset_checked range, appendRecord]

theorem checkedMaybeEmit_eq {fsm : SmFsm} (bounded : Bounded fsm) (active : fsm.active = true)
    (clipMs : Int) : checkedMaybeEmit fsm clipMs = some (maybeEmitContinuousWindow fsm clipMs) := by
  rw [checkedMaybeEmit, checkedTargetBytes_eq, Option.bind_eq_bind, Option.bind_some,
    maybeEmitContinuousWindow]
  dsimp only
  split_ifs with short
  · rfl
  · obtain ⟨ends, bound⟩ := bounded.tiled active
    simp only [not_or, not_lt] at short
    have reached := short.2.2
    simp only [maxSafeInteger] at bound
    rw [checkedAdd_of_lt (by omega), checkedSub_of_le reached (by omega)]
    rfl

theorem step_bounded (clipMs : Int) {fsm : SmFsm} {call : FsmCall} (bounded : Bounded fsm)
    (validated : call.Satisfies Validated) : Bounded (callStep clipMs fsm call).1 := by
  cases call with
  | idle idleMs nowMs => exact drain_preserves Bounded reset_bounded bounded (by simp)
  | flush => exact drain_preserves Bounded reset_bounded bounded (by simp)
  | record rec nowMs =>
      have taken := recordBranch_takes clipMs fsm rec
      have range := range_of_branch clipMs fsm validated
      rw [callStep, processRecord_branch]
      generalize recordBranch clipMs fsm rec = branch at taken range ⊢
      cases taken with
      | ignore invalid => exact bounded
      | late => exact bounded
      | restart empty =>
          exact window_bounded (startClip_bounded (range _ rfl (by simp)) nowMs) rfl clipMs
      | gap active pending => exact startClip_bounded (range _ rfl (by simp)) nowMs
      | boundary active offset => exact startClip_bounded (range _ rfl (by simp)) nowMs
      | extend active offset compatible =>
          exact window_bounded
            (appendRecord_bounded bounded active (range _ rfl (by simp)) offset nowMs) active clipMs
      | append active offset =>
          exact appendRecord_bounded bounded active (range _ rfl (by simp)) offset nowMs

theorem step_exact (clipMs : Int) {fsm : SmFsm} {call : FsmCall} (bounded : Bounded fsm)
    (validated : call.Satisfies Validated) :
    checkedCallStep clipMs fsm call = some (callStep clipMs fsm call) := by
  cases call with
  | idle idleMs nowMs => rfl
  | flush => rfl
  | record rec nowMs =>
      simp only [checkedCallStep, callStep, checkedProcessRecord, smFsmProcessRecord]
      by_cases invalid : (!rec.valid) = true
      · simp only [invalid, if_true]
      · have range : InReaderRange rec := validated (by simpa using invalid)
        have started := checkedStartClip_eq range nowMs
        have opened := checkedMaybeEmit_eq (startClip_bounded range nowMs) rfl clipMs
        rw [if_neg invalid, if_neg invalid]
        split_ifs with inactive late empty jump compatible reached
        · simp [started, opened]
        · rfl
        · simp [started, opened]
        · simp [started]
        all_goals
          have active : fsm.active = true := by simpa using inactive
          have offset : rec.offset = fsm.expectedOffset := by
            simp only [Discontiguous, not_or, not_not] at jump
            exact jump.2
          have extended := checkedAppendRecord_eq bounded active range offset nowMs
        · have grown := appendRecord_bounded bounded active range offset nowMs
          simp [extended, checkedMaybeEmit_eq grown active clipMs]
        · simp [started]
        · simp [extended]

/-- An active window ends at the expected offset, and the expectations are far below the
word size. -/
def WithinWords (fsm : SmFsm) : Prop :=
  fsm.active = true → fsm.startOffset + fsm.totalLength = fsm.expectedOffset ∧
    fsm.expectedOffset ≤ 2 ^ 54 ∧ fsm.expectedSeq ≤ 2 ^ 53

theorem Bounded.within {fsm : SmFsm} (bounded : Bounded fsm) : WithinWords fsm := by
  intro active
  obtain ⟨ends, bound⟩ := bounded.tiled active
  refine ⟨ends, ?_, bounded.seq active⟩
  simp only [maxSafeInteger] at bound
  omega

/-- Over any number of accumulated records, no addition and no subtraction wraps. -/
theorem arithmetic_never_wraps (clipMs : Int) (calls : List FsmCall)
    (validated : ∀ call ∈ calls, call.Satisfies Validated) :
    Mealy.Along (callStep clipMs)
      (fun fsm call => checkedCallStep clipMs fsm call = some (callStep clipMs fsm call) ∧
        WithinWords (callStep clipMs fsm call).1) smFsmReset calls :=
  Mealy.along_of_invariant (callStep clipMs) Bounded (fun call => call.Satisfies Validated)
    (fun _ _ bounded valid => ⟨step_exact clipMs bounded valid,
      (step_bounded clipMs bounded valid).within⟩)
    (fun _ _ bounded valid => step_bounded clipMs bounded valid) reset_bounded validated

/-- Two records that end at the largest offset, and a late one. -/
theorem arithmetic_never_wraps_at_the_top :
    Mealy.Along (callStep 1000)
      (fun fsm call => checkedCallStep 1000 fsm call = some (callStep 1000 fsm call) ∧
        WithinWords (callStep 1000 fsm call).1) smFsmReset
      [.record (continuousRecord 1 0 (2 ^ 53 - 1) 0 4) 10,
        .record (continuousRecord 2 (2 ^ 53 - 1) (2 ^ 53 - 1) 100 4) 20,
        .record (continuousRecord 1 0 1 200 4) 30, .idle 50 100, .flush] :=
  arithmetic_never_wraps 1000 _ (by decide)

end StreamDataPipeline.StreamMerge.ExactArithmetic
