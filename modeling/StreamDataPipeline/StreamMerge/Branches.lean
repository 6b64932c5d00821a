/- Which branch a record takes, and runs under one window length. -/

import StreamDataPipeline.StreamMerge.ByteConservation

set_option autoImplicit false
set_option relaxedAutoImplicit false

namespace StreamDataPipeline.StreamMerge.Branches

open Foundations Foundations.Word Fsm FsmRun ByteConservation

/-- The branches of `sm_fsm_process_record`. Both ways of starting on an empty window
are `restart`. -/
inductive RecordBranch
  | ignore | restart | late | gap | extend | boundary | append
  deriving DecidableEq

def recordBranch (clipMs : Int) (fsm : SmFsm) (rec : SmMetaRecord) : RecordBranch :=
  if !rec.valid then .ignore
  else if !fsm.active then .restart
  else if rec.seq < fsm.expectedSeq then .late
  else if Discontiguous fsm rec then if fsm.totalLength = 0 then .restart else .gap
  else if continuousCompatible fsm rec then .extend
  else if clipMs ≤ rec.tsMs - fsm.startTsMs then .boundary
  else .append

/-- What the branch does. -/
def branchStep (clipMs nowMs : Int) (fsm : SmFsm) (rec : SmMetaRecord) :
    RecordBranch → SmFsm × SmFsmAction
  | .ignore => (fsm, .none)
  | .restart => maybeEmitContinuousWindow (startClip rec nowMs) clipMs
  | .late => (fsm, .rejectLate)
  | .gap => (startClip rec nowMs, .emitPartial (snapshotClip fsm))
  | .extend => maybeEmitContinuousWindow (appendRecord fsm rec nowMs) clipMs
  | .boundary => (startClip rec nowMs, .emitComplete (snapshotClip fsm))
  | .append => (appendRecord fsm rec nowMs, .none)

/-- The branch decides the whole step. -/
theorem processRecord_branch (fsm : SmFsm) (rec : SmMetaRecord) (clipMs nowMs : Int) :
    smFsmProcessRecord fsm rec clipMs nowMs =
      branchStep clipMs nowMs fsm rec (recordBranch clipMs fsm rec) := by
  unfold smFsmProcessRecord recordBranch
  split_ifs with invalid inactive late empty jump compatible reached <;> first | rfl | tauto

/-- What holds of the state and the record when a branch is taken. -/
inductive Takes (clipMs : Int) (fsm : SmFsm) (rec : SmMetaRecord) : RecordBranch → Prop
  | ignore (invalid : rec.valid = false) : Takes clipMs fsm rec .ignore
  | restart (empty : fsm.active = true → fsm.totalLength = 0) : Takes clipMs fsm rec .restart
  | late : Takes clipMs fsm rec .late
  | gap (active : fsm.active = true) (pending : fsm.totalLength ≠ 0) :
      Takes clipMs fsm rec .gap
  | extend (active : fsm.active = true) (offset : rec.offset = fsm.expectedOffset)
      (compatible : continuousCompatible fsm rec = true) : Takes clipMs fsm rec .extend
  | boundary (active : fsm.active = true) (offset : rec.offset = fsm.expectedOffset) :
      Takes clipMs fsm rec .boundary
  | append (active : fsm.active = true) (offset : rec.offset = fsm.expectedOffset) :
      Takes clipMs fsm rec .append

theorem recordBranch_takes (clipMs : Int) (fsm : SmFsm) (rec : SmMetaRecord) :
    Takes clipMs fsm rec (recordBranch clipMs fsm rec) := by
  unfold recordBranch
  split_ifs with invalid inactive late jump empty compatible reached
  · exact .ignore (by simpa using invalid)
  · have idle : fsm.active = false := by simpa using inactive
    exact .restart (by simp [idle])
  · exact .late
  · exact .restart fun _ => empty
  · exact .gap (by simpa using inactive) empty
  all_goals
    have active : fsm.active = true := by simpa using inactive
    have offset : rec.offset = fsm.expectedOffset := by
      simp only [Discontiguous, not_or, not_not] at jump
      exact jump.2
  · exact .extend active offset compatible
  · exact .boundary active offset
  · exact .append active offset

theorem continuous_of_compatible {fsm : SmFsm} {rec : SmMetaRecord}
    (compatible : continuousCompatible fsm rec = true) : fsm.continuous = true := by
  simp only [continuousCompatible, Bool.and_eq_true] at compatible
  exact compatible.1.1.1

/-- The bytes of one window of the stream that the state collects. -/
def windowBytes (clipMs : Int) (fsm : SmFsm) : Nat :=
  alignedTargetBytes clipMs fsm.byteRate fsm.frameAlign

/-- A window of a continuous stream has all its bytes. -/
def Full (clipMs : Int) (fsm : SmFsm) : Prop :=
  fsm.continuous = true ∧ 0 < windowBytes clipMs fsm ∧ windowBytes clipMs fsm ≤ fsm.totalLength

instance (clipMs : Int) (fsm : SmFsm) : Decidable (Full clipMs fsm) := instDecidableAnd

theorem maybeEmit_full {clipMs : Int} {fsm : SmFsm} (full : Full clipMs fsm) :
    maybeEmitContinuousWindow fsm clipMs =
      (cutContinuousWindow fsm clipMs (windowBytes clipMs fsm),
        .emitComplete (snapshotContinuousClip fsm clipMs (windowBytes clipMs fsm))) := by
  obtain ⟨continuous, positive, reached⟩ := full
  simp only [windowBytes] at positive reached
  rw [maybeEmitContinuousWindow, if_neg]
  · rfl
  · simp only [continuous, Bool.not_true, Bool.false_eq_true, false_or]
    omega

theorem maybeEmit_short {clipMs : Int} {fsm : SmFsm} (short : ¬ Full clipMs fsm) :
    maybeEmitContinuousWindow fsm clipMs = (fsm, .none) := by
  rw [maybeEmitContinuousWindow, if_pos]
  by_contra cut
  apply short
  simp only [Bool.not_eq_true', not_or, Bool.not_eq_false, not_lt] at cut
  exact ⟨cut.1, Nat.pos_of_ne_zero cut.2.1, cut.2.2⟩

theorem cut_exact {clipMs : Int} {fsm : SmFsm} (tiled : Tiled fsm) (active : fsm.active = true)
    (full : Full clipMs fsm) :
    u64Add fsm.startOffset (windowBytes clipMs fsm) = fsm.startOffset + windowBytes clipMs fsm ∧
      u64Sub fsm.totalLength (windowBytes clipMs fsm) =
        fsm.totalLength - windowBytes clipMs fsm := by
  obtain ⟨ends, bound⟩ := tiled active
  have reached := full.2.2
  simp only [maxSafeInteger] at bound
  constructor
  · apply u64Add_of_lt
    omega
  · apply u64Sub_of_le reached
    omega

theorem recordBranch_ignore_iff (clipMs : Int) (fsm : SmFsm) (rec : SmMetaRecord) :
    recordBranch clipMs fsm rec = .ignore ↔ rec.valid = false := by
  unfold recordBranch
  split_ifs with invalid <;> simp_all

/-- The calls on the state machine, all with one window length. -/
inductive FsmCall
  | record (rec : SmMetaRecord) (nowMs : Int)
  | idle (idleMs nowMs : Int)
  | flush
  deriving DecidableEq

def callStep (clipMs : Int) (fsm : SmFsm) : FsmCall → SmFsm × SmFsmAction
  | .record rec nowMs => smFsmProcessRecord fsm rec clipMs nowMs
  | .idle idleMs nowMs => smFsmCheckIdle fsm idleMs nowMs
  | .flush => smFsmFlushFinal fsm

def callRun (clipMs : Int) (fsm : SmFsm) (calls : List FsmCall) : SmFsm × List SmFsmAction :=
  Mealy.run (callStep clipMs) fsm calls

/-- The clips of a run, in emission order. -/
def clipsOfRun (clipMs : Int) (fsm : SmFsm) (calls : List FsmCall) : List SmClipRecord :=
  emittedClips (callRun clipMs fsm calls).2

def FsmCall.Satisfies (P : SmMetaRecord → Prop) : FsmCall → Prop
  | .record rec _ => P rec
  | .idle _ _ | .flush => True

instance (P : SmMetaRecord → Prop) [DecidablePred P] : (c : FsmCall) → Decidable (c.Satisfies P)
  | .record rec _ => inferInstanceAs (Decidable (P rec))
  | .idle _ _ | .flush => isTrue trivial

/-- A record as the reader lets it through, with a payload. -/
def Payload (rec : SmMetaRecord) : Prop := Admitted rec ∧ 0 < rec.length

instance : DecidablePred Payload := fun _ => instDecidableAnd

def acceptedBy : FsmCall × SmFsmAction → List SmMetaRecord
  | (.record rec _, action) => if rec.valid ∧ action ≠ .rejectLate then [rec] else []
  | (.idle _ _, _) | (.flush, _) => []

/-- The valid records that were not answered `rejectLate`, in processing order. -/
def acceptedInRun (clipMs : Int) (fsm : SmFsm) (calls : List FsmCall) : List SmMetaRecord :=
  (calls.zip (callRun clipMs fsm calls).2).flatMap acceptedBy

theorem forall_clips_iff_along (P : SmClipRecord → Prop) (clipMs : Int) (fsm : SmFsm)
    (calls : List FsmCall) :
    (∀ clip ∈ clipsOfRun clipMs fsm calls, P clip) ↔
      Mealy.Along (callStep clipMs)
        (fun fsm call => ∀ clip ∈ clipsOf (callStep clipMs fsm call).2, P clip) fsm calls := by
  rw [Mealy.along_outputs (callStep clipMs) (fun action => ∀ clip ∈ clipsOf action, P clip)]
  simp only [clipsOfRun, callRun, emittedClips, List.mem_flatMap, forall_exists_index, and_imp]
  exact ⟨fun h action mem clip emitted => h clip action mem emitted,
    fun h clip action mem emitted => h action mem clip emitted⟩

theorem FsmCall.idle_or_flush {call : FsmCall} (drain : ∀ rec nowMs, call ≠ .record rec nowMs) :
    (∃ idleMs nowMs, call = .idle idleMs nowMs) ∨ call = .flush := by
  cases call with
  | record rec nowMs => exact absurd rfl (drain rec nowMs)
  | idle idleMs nowMs => exact .inl ⟨idleMs, nowMs, rfl⟩
  | flush => exact .inr rfl

/-- An idle check or a flush keeps the state, or empties it into one clip. -/
theorem drain_cases (clipMs : Int) (fsm : SmFsm) (call : FsmCall)
    (drain : ∀ rec nowMs, call ≠ .record rec nowMs) :
    callStep clipMs fsm call = (fsm, .none) ∨
      fsm.active = true ∧ fsm.totalLength ≠ 0 ∧ (callStep clipMs fsm call).1 = smFsmReset ∧
        clipsOf (callStep clipMs fsm call).2 = [snapshotClip fsm] := by
  rcases FsmCall.idle_or_flush drain with ⟨idleMs, nowMs, rfl⟩ | rfl
  · have step := checkIdle_step fsm idleMs nowMs
    rw [callStep]
    generalize smFsmCheckIdle fsm idleMs nowMs = next at step ⊢
    cases step with
    | keep => exact .inl rfl
    | flush active pending => exact .inr ⟨active, pending, rfl, rfl⟩
  · have step := (flushFinal_step fsm).1
    rw [callStep]
    generalize smFsmFlushFinal fsm = next at step ⊢
    cases step with
    | keep => exact .inl rfl
    | flush active pending => exact .inr ⟨active, pending, rfl, rfl⟩

theorem drain_answers (clipMs : Int) (fsm : SmFsm) (call : FsmCall)
    (drain : ∀ rec nowMs, call ≠ .record rec nowMs) :
    callStep clipMs fsm call = (fsm, .none) ∨
      (callStep clipMs fsm call).2 ≠ .none ∧ (callStep clipMs fsm call).1 = smFsmReset ∧
        clipsOf (callStep clipMs fsm call).2 = [snapshotClip fsm] := by
  rcases drain_cases clipMs fsm call drain with kept | ⟨_, _, reset, clips⟩
  · exact .inl kept
  · refine .inr ⟨?_, reset, clips⟩
    intro none
    simp [none, clipsOf] at clips

theorem drain_clip {clipMs : Int} {fsm : SmFsm} {call : FsmCall} {clip : SmClipRecord}
    (drain : ∀ rec nowMs, call ≠ .record rec nowMs)
    (emitted : clip ∈ clipsOf (callStep clipMs fsm call).2) :
    fsm.active = true ∧ fsm.totalLength ≠ 0 ∧ clip = snapshotClip fsm := by
  rcases drain_cases clipMs fsm call drain with kept | ⟨active, pending, _, clips⟩
  · simp [kept, clipsOf] at emitted
  · rw [clips, List.mem_singleton] at emitted
    exact ⟨active, pending, emitted⟩

theorem drain_preserves (Inv : SmFsm → Prop) (empty : Inv smFsmReset) {clipMs : Int} {fsm : SmFsm}
    {call : FsmCall} (here : Inv fsm) (drain : ∀ rec nowMs, call ≠ .record rec nowMs) :
    Inv (callStep clipMs fsm call).1 := by
  rcases drain_cases clipMs fsm call drain with kept | ⟨_, _, reset, _⟩
  · rw [kept]
    exact here
  · rw [reset]
    exact empty

end StreamDataPipeline.StreamMerge.Branches
