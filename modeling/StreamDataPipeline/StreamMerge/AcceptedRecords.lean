/- Without an idle timeout, the accepted records are the running maxima of their numbers. -/

import StreamDataPipeline.Foundations.RunningMaxima
import StreamDataPipeline.StreamMerge.ByteConservation
import StreamDataPipeline.StreamMerge.SequenceOrder

set_option autoImplicit false
set_option relaxedAutoImplicit false

namespace StreamDataPipeline.StreamMerge.AcceptedRecords

open Foundations Foundations.Word Foundations.RunningMaxima Fsm FsmRun ByteConservation
  SequenceOrder

def recordOf : FsmEvent → List SmMetaRecord
  | .record rec _ _ => [rec]
  | .idle _ _ => []

/-- The records of the calls, in order. -/
def recordsOf (events : List FsmEvent) : List SmMetaRecord := events.flatMap recordOf

theorem accepted_sublist (pair : FsmEvent × SmFsmAction) :
    (accepted pair).Sublist (recordOf pair.1) := by
  obtain ⟨event, action⟩ := pair
  cases event with
  | idle => simp [accepted, recordOf]
  | record rec clipMs nowMs => cases action <;> simp [accepted, recordOf]

theorem acceptedRecords_sublist (events : List FsmEvent) (actions : List SmFsmAction) :
    (acceptedRecords events actions).Sublist (recordsOf events) := by
  induction events generalizing actions with
  | nil => simp [acceptedRecords]
  | cons event events ih =>
      cases actions with
      | nil => simp [acceptedRecords]
      | cons action actions =>
          rw [recordsOf, List.flatMap_cons]
          exact (accepted_sublist (event, action)).append (ih actions)

private theorem late_below {clipMs nowMs : Int} {fsm : SmFsm} {rec : SmMetaRecord}
    {next : SmFsm × SmFsmAction} (step : RecordStep clipMs nowMs fsm rec next)
    (late : next.2 = .rejectLate) : rec.seq < nextSeq fsm := by
  cases step with
  | restart reopens empty window => cases window <;> cases late
  | late active behind => simpa [nextSeq, active] using behind
  | gap => cases late
  | continuousAppend active seq offset compatible window => cases window <;> cases late
  | boundary => cases late
  | append => cases late

theorem accepted_eq_above {fsm : SmFsm} {events : List FsmEvent}
    (admitted : ∀ e ∈ events, e.Satisfies SeqAdmitted)
    (quiet : ∀ p ∈ events.zip (fsmRun fsm events).2, NotTimedOut p) :
    acceptedRecords events (fsmRun fsm events).2 =
      above SmMetaRecord.seq (nextSeq fsm) (recordsOf events) := by
  induction events generalizing fsm with
  | nil => rfl
  | cons event events ih =>
      rw [List.forall_mem_cons] at admitted
      rw [fsmRun, Mealy.run_cons, List.zip_cons_cons, List.forall_mem_cons] at quiet
      have later := ih admitted.2 quiet.2
      rw [fsmRun, Mealy.run_cons]
      cases event with
      | idle idleMs nowMs =>
          have kept : (smFsmCheckIdle fsm idleMs nowMs).1 = fsm := by
            have step := checkIdle_step fsm idleMs nowMs
            have silent := quiet.1
            simp only [NotTimedOut, fsmStep] at silent
            generalize smFsmCheckIdle fsm idleMs nowMs = next at step silent
            cases step with
            | keep => rfl
            | flush => cases silent
          rw [fsmStep, kept] at later
          rw [fsmStep, kept]
          exact later
      | record rec clipMs nowMs =>
          have step := processRecord_step admitted.1.1 fsm clipMs nowMs
          rw [fsmStep] at later
          rw [fsmStep]
          have bound := late_below step
          have moves := record_seq admitted.1.2 step
          generalize smFsmProcessRecord fsm rec clipMs nowMs = next at later bound moves ⊢
          have records : recordsOf (.record rec clipMs nowMs :: events) =
              rec :: recordsOf events := rfl
          rw [records, above]
          rcases moves with ⟨same, late⟩ | ⟨moved, reached, answered⟩
          · rw [if_pos (bound late), ← same, ← later, late]
            rfl
          · rw [if_neg (by omega), ← moved, ← later]
            exact congrArg (· ++ _) (accepted_record answered)

end StreamDataPipeline.StreamMerge.AcceptedRecords
