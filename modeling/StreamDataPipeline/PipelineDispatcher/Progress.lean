/- Every run of the dispatcher comes to its end. -/

import Mathlib.Algebra.BigOperators.Fin
import StreamDataPipeline.PipelineDispatcher.Supervision

set_option autoImplicit false
set_option relaxedAutoImplicit false

namespace StreamDataPipeline.PipelineDispatcher.Progress

open Foundations Supervision

/-- Nothing is left to happen but a signal: the dispatcher makes no call, and no child runs. -/
def Ended (s : State) : Prop := callStep s = none ∧ ∀ i status, exitStep s i status = none

/-- How many calls the dispatcher still has ahead of it, at most. -/
def callsAhead : Pc → Nat
  | .pipe1 => 36
  | .pipe2 => 35
  | .spawn i => 26 + 2 * (pdChildCount + 1 - i)
  | .closePipes => 25
  | .check => 24
  | .wait i _ => 16 + 2 * (pdChildCount - i)
  | .blocked i _ _ => 15 + 2 * (pdChildCount - i)
  | .cleanup _ => 13
  | .kill i _ => 6 + (pdChildCount - i)
  | .killWait i _ => 1 + (pdChildCount - i)
  | .returned _ => 0

/-- Whether the child has its exit still ahead of it. -/
def exitAhead : Process → Nat
  | .unborn | .running => 1
  | .zombie _ | .reaped => 0

def signalAhead : Bool → Nat
  | true => 0
  | false => 1

def movesAhead (s : State) : Nat :=
  callsAhead s.pc + (∑ i, exitAhead (s.children i).process) + signalAhead s.interrupted

private theorem exitsAhead_update (children : Children) (i : Fin pdChildCount) (child : Child) :
    (∑ j, exitAhead (Function.update children i child j).process) +
        exitAhead (children i).process =
      (∑ j, exitAhead (children j).process) + exitAhead child.process := by
  have apart : ∀ f : Fin pdChildCount → Nat, ∑ j, f j = f i + ∑ j ∈ Finset.univ.erase i, f j :=
    fun f => (Finset.add_sum_erase _ f (Finset.mem_univ i)).symm
  have others : ∑ j ∈ Finset.univ.erase i,
        exitAhead (Function.update children i child j).process =
      ∑ j ∈ Finset.univ.erase i, exitAhead (children j).process := by
    apply Finset.sum_congr rfl
    intro j mem
    rw [Function.update_of_ne (Finset.ne_of_mem_erase mem)]
  rw [apart, others, apart fun j => exitAhead (children j).process, Function.update_self]
  omega

private theorem movesAhead_goto {s : State} {pc : Pc} (h : callsAhead pc < callsAhead s.pc) :
    movesAhead (s.goto pc) < movesAhead s := by
  unfold movesAhead
  simp only [State.goto_pc, State.goto_children, State.goto_interrupted]
  omega

private theorem movesAhead_setChild {s : State} {i : Fin pdChildCount} {child : Child}
    (h : exitAhead child.process ≤ exitAhead (s.children i).process) :
    movesAhead (s.setChild i child) ≤ movesAhead s := by
  have change := exitsAhead_update s.children i child
  unfold movesAhead
  simp only [State.setChild_pc, State.setChild_children, State.setChild_interrupted]
  omega

private theorem movesAhead_setChild_goto {s : State} {i : Fin pdChildCount} {child : Child}
    {pc : Pc} (h : exitAhead child.process ≤ exitAhead (s.children i).process)
    (calls : callsAhead pc < callsAhead s.pc) :
    movesAhead ((s.setChild i child).goto pc) < movesAhead s :=
  Nat.lt_of_lt_of_le (movesAhead_goto calls) (movesAhead_setChild h)

private theorem waitChild_movesAhead {s s' : State} {i : Fin pdChildCount} {rc : PdExitCode}
    {signalled : Bool} (waited : waitChild s i rc signalled = some s')
    (place : 15 + 2 * (pdChildCount - i.val) ≤ callsAhead s.pc) :
    movesAhead s' < movesAhead s := by
  have more := i.isLt
  have next : ∀ rc', callsAhead (.wait (i.val + 1) rc') < callsAhead s.pc := by
    intro rc'
    have value : callsAhead (.wait (i.val + 1) rc') = 16 + 2 * (pdChildCount - (i.val + 1)) := rfl
    omega
  unfold waitChild at waited
  split at waited
  · cases waited
    exact movesAhead_setChild_goto (Nat.zero_le _) (next _)
  · split_ifs at waited
    · cases waited
      have value : callsAhead (.kill 0 .interrupted) = 9 := rfl
      exact movesAhead_goto (by omega)
    · cases waited
      exact movesAhead_goto (next _)
  · cases waited
    exact movesAhead_goto (next _)
  · cases waited

private theorem killWaitChild_movesAhead {s s' : State} {i : Fin pdChildCount} {rc : PdExitCode}
    (waited : killWaitChild s i rc = some s') (pc : s.pc = .killWait i.val rc) :
    movesAhead s' < movesAhead s := by
  have more := i.isLt
  have next : callsAhead (.killWait (i.val + 1) rc) < callsAhead s.pc := by
    rw [pc]
    simp only [callsAhead]
    omega
  unfold killWaitChild at waited
  split at waited
  · cases waited
    exact movesAhead_setChild_goto (Nat.zero_le _) next
  · cases waited
  · cases waited
    exact movesAhead_setChild_goto (Nat.le_refl _) next

private theorem movesAhead_openPipe (s : State) (ends : Fin 4 → Bool) :
    movesAhead (openPipe s ends) = movesAhead s := rfl

private theorem movesAhead_closePipeFds (s : State) :
    movesAhead (closePipeFds s) = movesAhead s := rfl

private theorem callStep_movesAhead {s s' : State} (called : callStep s = some s') :
    movesAhead s' < movesAhead s := by
  have three : pdChildCount = 3 := rfl
  cases callStep_cases called with
  | pipe1 pc | pipe2 pc =>
      rw [← movesAhead_openPipe s]
      exact movesAhead_goto (by rw [openPipe_pc, pc]; decide)
  | @spawn i pc h =>
      have here : callsAhead s.pc = 26 + 2 * (pdChildCount + 1 - i) := by rw [pc]; rfl
      have change := exitsAhead_update s.children ⟨i, h⟩ ⟨true, .running, false⟩
      have value : callsAhead (.spawn (i + 1)) = 26 + 2 * (pdChildCount + 1 - (i + 1)) := rfl
      have one : exitAhead .running = 1 := rfl
      dsimp only at change
      unfold movesAhead
      simp only [State.goto_pc, State.goto_children, State.goto_interrupted,
        State.setChild_children, State.setChild_interrupted]
      omega
  | closePipes pc =>
      rw [← movesAhead_closePipeFds s]
      exact movesAhead_goto (by rw [closePipeFds_pc, pc]; decide)
  | cleanup pc =>
      rw [← movesAhead_closePipeFds s]
      exact movesAhead_goto (by rw [closePipeFds_pc, pc]; exact show 9 < 13 by decide)
  | check pc =>
      apply movesAhead_goto
      rw [pc]
      split_ifs <;> decide
  | wait pc h waited =>
      refine waitChild_movesAhead waited ?_
      rcases pc with ⟨pc, -⟩ | pc <;> rw [pc] <;> simp only [callsAhead] <;> omega
  | kill pc h =>
      refine movesAhead_setChild_goto (Nat.le_refl _) ?_
      rw [pc]
      simp only [callsAhead]
      omega
  | killWait pc h waited => exact killWaitChild_movesAhead waited pc
  | spawned pc | block pc | waitSkips pc | waitEnds pc | killSkips pc | killEnds pc
  | killWaitSkips pc | killWaitEnds pc =>
      apply movesAhead_goto
      rw [pc]
      simp only [callsAhead]
      omega

private theorem failStep_movesAhead {s s' : State} (failed : failStep s = some s') :
    movesAhead s' < movesAhead s := by
  unfold failStep at failed
  split at failed
  · rename_i pc
    cases failed
    exact movesAhead_goto (by rw [pc]; decide)
  · rename_i pc
    cases failed
    rw [← movesAhead_closePipeFds s]
    exact movesAhead_goto (by rw [closePipeFds_pc, pc]; decide)
  · rename_i i pc
    have here : callsAhead s.pc = 26 + 2 * (pdChildCount + 1 - i) := by rw [pc]; rfl
    have value : callsAhead (.cleanup .setupError) = 13 := rfl
    split_ifs at failed
    cases failed
    exact movesAhead_goto (by omega)
  · cases failed

private theorem step_movesAhead {s s' : State} {move : Move} (stepped : step s move = some s') :
    movesAhead s' < movesAhead s := by
  cases move with
  | call => exact callStep_movesAhead stepped
  | fail => exact failStep_movesAhead stepped
  | signal =>
      simp only [step, signalStep] at stepped
      split_ifs at stepped with flag
      have before : signalAhead s.interrupted = 1 := by simp [flag, signalAhead]
      have after : signalAhead true = 0 := rfl
      split at stepped
      · rename_i i rc signalled pc
        have same : callsAhead (.blocked i rc true) = callsAhead s.pc := by rw [pc]; rfl
        cases stepped
        unfold movesAhead
        simp only [State.goto_pc, State.goto_children, State.goto_interrupted]
        omega
      · cases stepped
        unfold movesAhead
        dsimp only
        omega
  | exit i status =>
      obtain ⟨running, rfl⟩ := exitStep_cases stepped
      have change := exitsAhead_update s.children i
        { s.children i with process := .zombie status }
      have before : exitAhead (s.children i).process = 1 := by rw [running]; rfl
      have after : exitAhead (.zombie status) = 0 := rfl
      dsimp only at change
      unfold movesAhead
      simp only [State.setChild_pc, State.setChild_children, State.setChild_interrupted]
      omega

/-- No run goes on for ever. -/
theorem run_length_le {moves : List Move} {s : State}
    (ran : Schedule.run step start moves = some s) : moves.length ≤ 40 := by
  have bound := Schedule.length_le_of_decreasing movesAhead step_movesAhead ran
  have whole : movesAhead start = 40 := by decide
  omega

end StreamDataPipeline.PipelineDispatcher.Progress
