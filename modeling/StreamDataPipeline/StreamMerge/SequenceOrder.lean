/- Accepted sequence numbers rise strictly until an idle timeout resets the machine. -/

import StreamDataPipeline.StreamMerge.FsmRun

set_option autoImplicit false
set_option relaxedAutoImplicit false

namespace StreamDataPipeline.StreamMerge.SequenceOrder

open Foundations Foundations.Word Fsm FsmRun

/-- The sequence numbers of the accepted records, in processing order. -/
def acceptedSeqs (events : List FsmEvent) (actions : List SmFsmAction) : List Nat :=
  (acceptedRecords events actions).map SmMetaRecord.seq

/-- The least sequence number that is not rejected as late. -/
def nextSeq (fsm : SmFsm) : Nat := if fsm.active then fsm.expectedSeq else 0

/-- The call is not an idle check that timed out. -/
def NotTimedOut : FsmEvent × SmFsmAction → Prop
  | (.idle _ _, action) => action = .none
  | (.record _ _ _, _) => True

instance : DecidablePred NotTimedOut
  | (.idle _ _, action) => inferInstanceAs (Decidable (action = .none))
  | (.record _ _ _, _) => isTrue trivial

/-- The successor of the sequence number is still a 64-bit word. -/
def SeqAdmitted (rec : SmMetaRecord) : Prop := rec.valid = true ∧ rec.seq + 1 < 2 ^ 64

instance : DecidablePred SeqAdmitted := fun _ => instDecidableAnd

private theorem window_nextSeq {clipMs : Int} {fsm : SmFsm} {next : SmFsm × SmFsmAction}
    (active : fsm.active = true) (window : WindowStep clipMs fsm next) :
    nextSeq next.1 = fsm.expectedSeq ∧ next.2 ≠ .rejectLate := by
  cases window with
  | keep => exact ⟨by simp [nextSeq, active], by simp⟩
  | cut continuous positive full =>
      exact ⟨by simp [nextSeq, cutContinuousWindow, active], by simp⟩

private theorem accepted_seqs_of_answer {rec : SmMetaRecord} {clipMs nowMs : Int}
    {action : SmFsmAction} (h : action ≠ .rejectLate) :
    (accepted (.record rec clipMs nowMs, action)).map SmMetaRecord.seq = [rec.seq] := by
  cases action <;> simp_all [accepted]

/-- An accepted record is at or above the bound and moves it past its own number; a
rejected one leaves the bound alone. -/
theorem record_seq {clipMs nowMs : Int} {fsm : SmFsm} {rec : SmMetaRecord}
    {next : SmFsm × SmFsmAction} (room : rec.seq + 1 < 2 ^ 64)
    (step : RecordStep clipMs nowMs fsm rec next) :
    (nextSeq next.1 = nextSeq fsm ∧ next.2 = .rejectLate) ∨
      (nextSeq next.1 = rec.seq + 1 ∧ nextSeq fsm ≤ rec.seq ∧ next.2 ≠ .rejectLate) := by
  have exact_seq : u64Add rec.seq 1 = rec.seq + 1 := u64Add_of_lt room
  cases step with
  | restart reopens empty window =>
      obtain ⟨bound, answered⟩ := window_nextSeq rfl window
      refine .inr ⟨bound.trans exact_seq, ?_, answered⟩
      rcases reopens with inactive | ⟨ahead, _⟩
      · simp [nextSeq, inactive]
      · unfold nextSeq
        split_ifs <;> omega
  | late active behind => exact .inl ⟨rfl, rfl⟩
  | gap active pending reopens =>
      refine .inr ⟨exact_seq, ?_, by simp⟩
      rcases reopens with inactive | ⟨ahead, _⟩
      · simp [active] at inactive
      · simpa [nextSeq, active] using ahead
  | continuousAppend active seq offset compatible window =>
      have extended : (appendRecord fsm rec nowMs).active = true := active
      obtain ⟨bound, answered⟩ := window_nextSeq extended window
      exact .inr ⟨bound.trans exact_seq, by simp [nextSeq, active, seq], answered⟩
  | boundary active seq offset reached =>
      exact .inr ⟨exact_seq, by simp [nextSeq, active, seq], by simp⟩
  | append active seq offset incompatible within =>
      exact .inr ⟨by simp [nextSeq, appendRecord, active, exact_seq],
        by simp [nextSeq, active, seq], by simp⟩

private theorem step_seq (fsm : SmFsm) (event : FsmEvent)
    (admitted : event.Satisfies SeqAdmitted)
    (quiet : NotTimedOut (event, (fsmStep fsm event).2)) :
    nextSeq fsm ≤ nextSeq (fsmStep fsm event).1 ∧
      ((accepted (event, (fsmStep fsm event).2)).map SmMetaRecord.seq).Pairwise (· < ·) ∧
      ∀ n ∈ (accepted (event, (fsmStep fsm event).2)).map SmMetaRecord.seq,
        nextSeq fsm ≤ n ∧ n < nextSeq (fsmStep fsm event).1 := by
  cases event with
  | record rec clipMs nowMs =>
      have step := processRecord_step admitted.1 fsm clipMs nowMs
      simp only [fsmStep]
      rcases record_seq admitted.2 step with ⟨same, late⟩ | ⟨moved, above, answered⟩
      · rw [same, late]
        simp [accepted]
      · rw [accepted_seqs_of_answer answered, moved]
        simp only [List.pairwise_singleton, List.mem_singleton, forall_eq, true_and]
        omega
  | idle idleMs nowMs =>
      have kept : (smFsmCheckIdle fsm idleMs nowMs).1 = fsm := by
        cases h : smFsmCheckIdle fsm idleMs nowMs with
        | mk state action =>
            have step := checkIdle_step fsm idleMs nowMs
            simp only [NotTimedOut, fsmStep, h] at quiet
            rw [h, quiet] at step
            cases step
            rfl
      simp [fsmStep, kept, accepted]

/-- From any reachable state, the accepted sequence numbers rise strictly over every
stretch of calls in which no idle check times out. -/
theorem acceptedSeqs_rise (before stretch : List FsmEvent)
    (admitted : ∀ e ∈ stretch, e.Satisfies SeqAdmitted)
    (quiet : ∀ p ∈ stretch.zip (fsmRun (fsmRun smFsmReset before).1 stretch).2,
      NotTimedOut p) :
    (acceptedSeqs stretch
      (fsmRun (fsmRun smFsmReset before).1 stretch).2).Pairwise (· < ·) := by
  have rise := Mealy.run_stamps_rise fsmStep (FsmEvent.Satisfies SeqAdmitted)
    NotTimedOut nextSeq (fun pair => (accepted pair).map SmMetaRecord.seq) step_seq
    (fsmRun smFsmReset before).1 stretch admitted quiet
  simp only [acceptedSeqs, acceptedRecords, List.map_flatMap]
  exact rise.1

/-- A late copy and a jump after a first idle timeout. -/
theorem acceptedSeqs_rise_after_timeout :
    acceptedSeqs [.record (dataRecord 3 0 4 0) 5000 5000, .record (dataRecord 3 0 4 0) 5000 5100,
          .idle 2000 5200, .record (dataRecord 9 50 4 0) 5000 5300]
        (fsmRun (fsmRun smFsmReset [.record (dataRecord 8 0 4 0) 5000 100,
          .idle 2000 3000]).1 [.record (dataRecord 3 0 4 0) 5000 5000,
          .record (dataRecord 3 0 4 0) 5000 5100, .idle 2000 5200,
          .record (dataRecord 9 50 4 0) 5000 5300]).2 = [3, 9] ∧
      [3, 9].Pairwise (· < ·) :=
  ⟨by decide, acceptedSeqs_rise [.record (dataRecord 8 0 4 0) 5000 100, .idle 2000 3000]
    [.record (dataRecord 3 0 4 0) 5000 5000, .record (dataRecord 3 0 4 0) 5000 5100,
      .idle 2000 5200, .record (dataRecord 9 50 4 0) 5000 5300] (by decide) (by decide)⟩

/-- An idle timeout resets `expectedSeq` with the rest of the state, so the same chunk is
accepted a second time after it and its bytes are emitted again. -/
theorem chunk_accepted_twice_after_timeout :
    ¬ (acceptedSeqs [.record (dataRecord 1 0 4 1000) 5000 100, .idle 2000 3000,
          .record (dataRecord 1 0 4 1000) 5000 3100]
        (fsmRun smFsmReset [.record (dataRecord 1 0 4 1000) 5000 100, .idle 2000 3000,
          .record (dataRecord 1 0 4 1000) 5000 3100]).2).Pairwise (· < ·) := by
  decide

end StreamDataPipeline.StreamMerge.SequenceOrder
