/- Which termination requests the dispatcher heeds. -/

import StreamDataPipeline.PipelineDispatcher.Accounting

set_option autoImplicit false
set_option relaxedAutoImplicit false

namespace StreamDataPipeline.PipelineDispatcher.Termination

open Foundations Supervision Progress Accounting

/-- The call that blocks on child `lo` has been signalled, and the child has not exited. -/
def Pending (lo : Nat) (s : State) : Prop :=
  s.interrupted = true ∧ ∃ rc, s.pc = .blocked lo rc true ∧ rc ≠ .interrupted ∧
    Layout s.children lo pdChildCount ∧
    ∃ h : lo < pdChildCount, (s.children ⟨lo, h⟩).process = .running

/-- The request leads to the termination of the children from `lo` on. -/
def Heeded (lo : Nat) (s : State) : Prop :=
  s.interrupted = true ∧ (lo = 0 ∧ InSetup s ∨ InKill lo pdChildCount .interrupted s)

/-- The flag is set, and nothing will look at it any more. -/
def Swallowed (s : State) : Prop :=
  s.interrupted = true ∧ InWait s ∧ ∀ i rc, s.pc = .blocked i.val rc true →
    (s.children i).process ≠ .running

/-- No request has been made yet. -/
def Quiet (s : State) : Prop :=
  s.interrupted = false ∧ (InSetup s ∨ InWait s ∧ ∀ i rc, s.pc ≠ .blocked i rc true)

private theorem callStep_pending {s s' : State} {lo : Nat} (pending : Pending lo s)
    (called : callStep s = some s') : Heeded lo s' := by
  obtain ⟨flag, rc, pc, normal, layout, h, running⟩ := pending
  rcases waitChild_cases h true normal layout with ⟨other, -⟩ | ⟨-, answer⟩
  · exact absurd running other
  · rw [if_pos rfl, if_pos flag] at answer
    simp only [callStep, pc, dif_pos h, answer] at called
    cases called
    refine ⟨flag, .inr ⟨⟨Nat.le_of_lt h, Nat.le_refl _⟩, rfl, layout, ?_⟩⟩
    intro j _ _ below
    exact absurd below (Nat.not_lt_zero _)

private theorem step_quiet {s s' : State} {move : Move} (quiet : Quiet s) (proper : move ≠ .fail)
    (stepped : step s move = some s') : s'.interrupted = true ∨ Quiet s' := by
  obtain ⟨flag, place⟩ := quiet
  cases move with
  | fail => exact absurd rfl proper
  | signal =>
      left
      simp only [step, signalStep, flag, Bool.false_eq_true, if_false] at stepped
      split at stepped <;> cases stepped <;> rfl
  | call =>
      right
      rcases place with setup | ⟨waits, deaf⟩
      · obtain ⟨same, next⟩ := callStep_setup setup stepped
        rw [flag] at same next
        exact ⟨same, next⟩
      · obtain ⟨same, next⟩ := callStep_wait waits
          (fun i rc blocked => absurd blocked (deaf i.val rc)) stepped
        exact ⟨same.trans flag, .inr next⟩
  | exit i status =>
      right
      obtain ⟨-, same⟩ := exitStep_cases stepped
      have flag' : s'.interrupted = false := by
        rw [same]
        exact flag
      rcases place with setup | ⟨waits, deaf⟩
      · exact ⟨flag', .inl (exitStep_setup setup stepped)⟩
      · refine ⟨flag', .inr ⟨exitStep_wait waits stepped, ?_⟩⟩
        rw [same]
        exact deaf

private theorem step_interrupted {s s' : State} {move : Move} (flag : s.interrupted = true)
    (proper : move ≠ .fail) (stepped : step s move = some s') : s'.interrupted = true := by
  cases move with
  | fail => exact absurd rfl proper
  | signal => simp [step, signalStep, flag] at stepped
  | call => exact (callStep_interrupted stepped).trans flag
  | exit i status =>
      obtain ⟨-, same⟩ := exitStep_cases stepped
      rw [same]
      exact flag

private theorem step_heeded {s s' : State} {lo : Nat} {move : Move} (heeded : Heeded lo s)
    (proper : move ≠ .fail) (stepped : step s move = some s') : Heeded lo s' := by
  obtain ⟨flag, place⟩ := heeded
  cases move with
  | fail => exact absurd rfl proper
  | signal => simp [step, signalStep, flag] at stepped
  | call =>
      rcases place with ⟨rfl, setup⟩ | kills
      · obtain ⟨same, next⟩ := callStep_setup setup stepped
        rw [flag, if_pos rfl] at next
        exact ⟨same.trans flag, next.imp_left fun setup' => ⟨rfl, setup'⟩⟩
      · obtain ⟨same, next⟩ := callStep_kill kills stepped
        exact ⟨same.trans flag, .inr next⟩
  | exit i status =>
      obtain ⟨-, same⟩ := exitStep_cases stepped
      have flag' : s'.interrupted = true := by
        rw [same]
        exact flag
      rcases place with ⟨zero, setup⟩ | kills
      · exact ⟨flag', .inl ⟨zero, exitStep_setup setup stepped⟩⟩
      · exact ⟨flag', .inr (exitStep_kill kills stepped)⟩

private theorem step_swallowed {s s' : State} {move : Move} (swallowed : Swallowed s)
    (proper : move ≠ .fail) (stepped : step s move = some s') : Swallowed s' := by
  obtain ⟨flag, waits, deaf⟩ := swallowed
  cases move with
  | fail => exact absurd rfl proper
  | signal => simp [step, signalStep, flag] at stepped
  | call =>
      obtain ⟨same, waits', apart⟩ := callStep_wait waits deaf stepped
      exact ⟨same.trans flag, waits', fun i rc blocked => absurd blocked (apart i.val rc)⟩
  | exit j status =>
      obtain ⟨-, same⟩ := exitStep_cases stepped
      have waits' := exitStep_wait waits stepped
      subst same
      refine ⟨flag, waits', ?_⟩
      intro i rc blocked
      by_cases own : i = j
      · subst own
        simp
      · simpa [Function.update_of_ne own] using deaf i rc blocked

/-- The call in which the flag is looked at has not been made. -/
def beforeCheck : Pc → Bool
  | .pipe1 | .pipe2 | .spawn _ | .closePipes | .check => true
  | _ => false

/-- The child exits before the dispatcher makes its next call. -/
def ExitsFirst (i : Fin pdChildCount) (after : List Move) : Prop :=
  ∃ status, .exit i status ∈ after.takeWhile (· ≠ .call)

/-- The signal comes before the check, or while `waitpid` blocks on a child that is still
running when the dispatcher goes on. -/
def Noticed (delivery : State) (after : List Move) : Prop :=
  beforeCheck delivery.pc = true ∨
    ∃ (i : Fin pdChildCount) (rc : PdExitCode) (signalled : Bool),
      delivery.pc = .blocked i.val rc signalled ∧ (delivery.children i).process = .running ∧
        ¬ ExitsFirst i after

/-- The dispatcher has returned the exit code of an interrupt, and every child that was not
reaped at the delivery was sent SIGTERM and waited for. -/
def Honoured (delivery s : State) : Prop :=
  s.pc = .returned .interrupted ∧ ∀ i, (delivery.children i).process ≠ .reaped →
    (s.children i).termSent = true ∧ (s.children i).process = .reaped

private def Proper (_ : State) (move : Move) : Prop := move ≠ .fail

private theorem guarded_of_proper {s : State} {schedule : List Move}
    (proper : .fail ∉ schedule) : Schedule.Guarded step Proper s schedule := by
  induction schedule generalizing s with
  | nil => trivial
  | cons move rest ih =>
      refine ⟨fun fails => proper (fails ▸ List.mem_cons_self), ?_⟩
      have later : .fail ∉ rest := fun mem => proper (List.mem_cons_of_mem move mem)
      cases stepped : step s move with
      | none => trivial
      | some next => exact ih later

private theorem run_quiet {s : State} {before : List Move} (proper : .fail ∉ before)
    (ran : Schedule.run step start before = some s) (flag : s.interrupted = false) :
    Quiet s := by
  have initial : Quiet start := by
    refine ⟨rfl, .inl ⟨?_, ?_, ?_⟩⟩
    · intro j below
      exact absurd below (Nat.not_lt_zero _)
    · intro j _ below
      exact absurd below (Nat.not_lt_zero _)
    · intro j _ _
      exact ⟨rfl, rfl⟩
  have reached := Schedule.run_invariant step Proper
    (fun s => s.interrupted = true ∨ Quiet s)
    (fun known allowed stepped => known.elim
      (fun set => .inl (step_interrupted set allowed stepped))
      (fun quiet => step_quiet quiet allowed stepped))
    (.inr initial) (guarded_of_proper proper) ran
  rcases reached with set | quiet
  · rw [flag] at set
    cases set
  · exact quiet

private theorem run_heeded {s s' : State} {lo : Nat} {after : List Move}
    (heeded : Heeded lo s) (proper : .fail ∉ after)
    (ran : Schedule.run step s after = some s') : Heeded lo s' :=
  Schedule.run_invariant step Proper (Heeded lo) step_heeded heeded (guarded_of_proper proper) ran

private theorem run_swallowed {s s' : State} {after : List Move} (swallowed : Swallowed s)
    (proper : .fail ∉ after) (ran : Schedule.run step s after = some s') : Swallowed s' :=
  Schedule.run_invariant step Proper Swallowed step_swallowed swallowed
    (guarded_of_proper proper) ran

private theorem honoured_of_heeded {delivery s : State} {lo : Nat} (heeded : Heeded lo s)
    (gone : ∀ j : Fin pdChildCount, j.val < lo → (delivery.children j).process = .reaped)
    (ended : Ended s) : Honoured delivery s := by
  obtain ⟨-, ⟨-, setup⟩ | kills⟩ := heeded
  · exact absurd ended.1 (callStep_setup_ne_none setup)
  · obtain ⟨pc, layout, sent⟩ := kill_ended kills ended
    refine ⟨pc, fun i unreaped => ⟨?_, (layout.gone i i.isLt).2⟩⟩
    have above : lo ≤ i.val := by
      by_contra below
      exact unreaped (gone i (Nat.not_le.mp below))
    exact sent i above i.isLt

private theorem not_honoured_of_swallowed {delivery s : State} (swallowed : Swallowed s) :
    ¬ Honoured delivery s := by
  rintro ⟨pc, -⟩
  have waits := swallowed.2.1
  unfold InWait at waits
  rw [pc] at waits
  exact waits.1 rfl

private theorem run_pending {s s' : State} {lo : Nat} {after : List Move} (h : lo < pdChildCount)
    (pending : Pending lo s) (proper : .fail ∉ after)
    (ran : Schedule.run step s after = some s') (ended : Ended s') :
    (¬ ExitsFirst ⟨lo, h⟩ after → Heeded lo s') ∧ (ExitsFirst ⟨lo, h⟩ after → Swallowed s') := by
  induction after generalizing s with
  | nil =>
      cases ran
      obtain ⟨flag, rc, pc, normal, layout, _, running⟩ := pending
      have stopped := ended.1
      rcases waitChild_cases h true normal layout with ⟨other, -⟩ | ⟨-, answer⟩
      · exact absurd running other
      · simp [callStep, pc, h, answer, flag] at stopped
  | cons move rest ih =>
      obtain ⟨next, stepped, later⟩ := Option.bind_eq_some_iff.mp ran
      have proper' : .fail ∉ rest := fun mem => proper (List.mem_cons_of_mem move mem)
      cases move with
      | fail => exact absurd List.mem_cons_self proper
      | signal => simp [step, signalStep, pending.1] at stepped
      | call =>
          have nothing : ¬ ExitsFirst ⟨lo, h⟩ (.call :: rest) := by
            rintro ⟨status, mem⟩
            simp at mem
          exact ⟨fun _ => run_heeded (callStep_pending pending stepped) proper' later,
            fun exits => absurd exits nothing⟩
      | exit j status =>
          have ahead : ∀ i, ExitsFirst i (.exit j status :: rest) ↔ i = j ∨ ExitsFirst i rest := by
            intro i
            simp [ExitsFirst, exists_or]
          obtain ⟨running, same⟩ := exitStep_cases stepped
          obtain ⟨flag, rc, pc, normal, layout, _, own⟩ := pending
          have layout' := layout_exit status running layout
          by_cases first : (⟨lo, h⟩ : Fin pdChildCount) = j
          · have swallowed : Swallowed next := by
              subst first same
              refine ⟨flag, ?_, ?_⟩
              · unfold InWait
                simp only [State.setChild_pc, pc]
                exact ⟨h, normal, layout'⟩
              · intro i rc' blocked
                simp only [State.setChild_pc, pc, Pc.blocked.injEq] at blocked
                obtain rfl : i = ⟨lo, h⟩ := Fin.ext blocked.1.symm
                simp
            exact ⟨fun waits => absurd ((ahead _).mpr (.inl first)) waits,
              fun _ => run_swallowed swallowed proper' later⟩
          · have pending' : Pending lo next := by
              subst same
              refine ⟨flag, rc, pc, normal, layout', h, ?_⟩
              simpa [Function.update_of_ne first] using own
            simpa [ahead, first] using ih pending' proper' later

private theorem beforeCheck_of_setup {s : State} (setup : InSetup s) :
    beforeCheck s.pc = true := by
  unfold InSetup at setup
  cases pc : s.pc <;> simp [pc, beforeCheck] at setup ⊢

private theorem signal_cases {s₀ s₁ : State} (quiet : Quiet s₀)
    (delivered : signalStep s₀ = some s₁) :
    (beforeCheck s₀.pc = true ∧ Heeded 0 s₁) ∨
      (beforeCheck s₀.pc = false ∧ ∃ (i : Fin pdChildCount) (rc : PdExitCode),
        s₀.pc = .blocked i.val rc false ∧ (s₀.children i).process = .running ∧
        Layout s₀.children i pdChildCount ∧ Pending i.val s₁) ∨
      (beforeCheck s₀.pc = false ∧ (∀ i rc signalled, s₀.pc = .blocked i.val rc signalled →
        (s₀.children i).process ≠ .running) ∧ Swallowed s₁) := by
  obtain ⟨flag, setup | ⟨waits, apart⟩⟩ := quiet
  · left
    simp only [signalStep, flag, Bool.false_eq_true, if_false] at delivered
    have early := beforeCheck_of_setup setup
    split at delivered
    · rename_i pc
      rw [pc] at early
      cases early
    · cases delivered
      exact ⟨early, rfl, .inl ⟨rfl, setup⟩⟩
  · right
    unfold InWait at waits
    unfold signalStep at delivered
    split at waits
    · rename_i pc
      simp only [flag, pc, Bool.false_eq_true, if_false] at delivered
      cases delivered
      refine .inr ⟨by rw [pc]; rfl, ?_, rfl, waits, ?_⟩
      · simp [pc]
      · simp
    · rename_i i rc signalled pc
      obtain ⟨h, normal, layout⟩ := waits
      obtain rfl : signalled = false := by
        cases signalled with
        | false => rfl
        | true => exact absurd pc (apart i rc)
      simp only [flag, pc, Bool.false_eq_true, if_false] at delivered
      cases delivered
      by_cases running : (s₀.children ⟨i, h⟩).process = .running
      · exact .inl ⟨by rw [pc]; rfl, ⟨i, h⟩, rc, pc, running, layout, rfl, rc, rfl, normal,
          layout, h, running⟩
      · refine .inr ⟨by rw [pc]; rfl, ?_, rfl, ⟨h, normal, layout⟩, ?_⟩
        · intro j rc' signalled blocked
          rw [pc, Pc.blocked.injEq] at blocked
          obtain rfl : j = ⟨i, h⟩ := Fin.ext blocked.1.symm
          exact running
        · intro j rc' blocked
          rw [State.goto_pc, Pc.blocked.injEq] at blocked
          obtain rfl : j = ⟨i, h⟩ := Fin.ext blocked.1.symm
          exact running
    · rename_i pc
      simp only [flag, pc, Bool.false_eq_true, if_false] at delivered
      cases delivered
      refine .inr ⟨by rw [pc]; rfl, ?_, rfl, waits, ?_⟩
      · simp [pc]
      · simp
    · exact absurd waits id

/-- In every run in which setup succeeds and a termination request is delivered: the run takes
at most 40 moves, and when it has ended, the dispatcher has honoured the request iff it was
noticed. -/
theorem termination_honoured_iff {before after : List Move} {s₀ s₁ s : State}
    (arrived : Schedule.run step start before = some s₀)
    (delivered : step s₀ .signal = some s₁)
    (ran : Schedule.run step s₁ after = some s)
    (setUp : .fail ∉ before ++ after) :
    before.length + 1 + after.length ≤ 40 ∧
      (Ended s → (Honoured s₀ s ↔ Noticed s₀ after)) := by
  obtain ⟨setUpBefore, setUpAfter⟩ :
      .fail ∉ before ∧ .fail ∉ after := by simpa [not_or] using setUp
  constructor
  · have whole : Schedule.run step start (before ++ .signal :: after) = some s := by
      have behind : Schedule.run step s₀ (.signal :: after) = some s :=
        Option.bind_eq_some_iff.mpr ⟨s₁, delivered, ran⟩
      rw [Schedule.run_append, arrived]
      exact behind
    have bound := run_length_le whole
    rw [List.length_append, List.length_cons] at bound
    omega
  · intro ended
    have clear : s₀.interrupted = false := by
      by_contra set
      simp [step, signalStep, eq_true_of_ne_false set] at delivered
    have quiet := run_quiet setUpBefore arrived clear
    rcases signal_cases quiet delivered with
      ⟨unchecked, heeded⟩ | ⟨checked, i, rc, pc, running, layout, pending⟩ |
        ⟨checked, deaf, swallowed⟩
    · refine ⟨fun _ => .inl unchecked, fun _ => ?_⟩
      refine honoured_of_heeded (run_heeded heeded setUpAfter ran) ?_ ended
      intro j below
      exact absurd below (Nat.not_lt_zero _)
    · obtain ⟨heeds, swallows⟩ := run_pending i.isLt pending setUpAfter ran ended
      by_cases exits : ExitsFirst i after
      · refine ⟨fun honoured => ?_, fun noticed => ?_⟩
        · exact absurd honoured (not_honoured_of_swallowed (swallows exits))
        · rcases noticed with unchecked | ⟨j, rc', signalled, pc', -, waits⟩
          · rw [checked] at unchecked
            cases unchecked
          · rw [pc, Pc.blocked.injEq] at pc'
            exact absurd (Fin.ext pc'.1 ▸ exits) waits
      · refine ⟨fun _ => .inr ⟨i, rc, false, pc, running, exits⟩, fun _ => ?_⟩
        exact honoured_of_heeded (heeds exits) (fun j below => (layout.gone j below).2) ended
    · refine ⟨fun honoured => ?_, fun noticed => ?_⟩
      · exact absurd honoured (not_honoured_of_swallowed (run_swallowed swallowed setUpAfter ran))
      · rcases noticed with unchecked | ⟨i, rc, signalled, pc, running, -⟩
        · rw [checked] at unchecked
          cases unchecked
        · exact absurd running (deaf i rc signalled pc)

def reached (s : State) (moves : List Move) : State := (Schedule.run step s moves).getD s

private theorem ended_of_idle {s : State} (stopped : callStep s = none)
    (idle : ∀ i, (s.children i).process ≠ .running) : Ended s := by
  refine ⟨stopped, ?_⟩
  intro i status
  rw [exitStep, if_neg (idle i)]

/-- The calls up to the one that blocks on the first child. -/
def untilBlocked : List Move := List.replicate 9 .call

def terminated : List Move :=
  List.replicate 5 .call ++ [.exit 0 (.signaled 15), .exit 1 (.signaled 15),
    .exit 2 (.signaled 15)] ++ List.replicate 4 .call

theorem termination_honoured_while_blocked :
    Ended (reached (reached (reached start untilBlocked) [.signal]) terminated) ∧
      Honoured (reached start untilBlocked)
        (reached (reached (reached start untilBlocked) [.signal]) terminated) := by
  have ended : Ended (reached (reached (reached start untilBlocked) [.signal]) terminated) :=
    ended_of_idle rfl (by decide)
  have arrived : Schedule.run step start untilBlocked = some (reached start untilBlocked) := rfl
  have delivered : step (reached start untilBlocked) .signal =
      some (reached (reached start untilBlocked) [.signal]) := rfl
  have ran : Schedule.run step (reached (reached start untilBlocked) [.signal]) terminated =
      some (reached (reached (reached start untilBlocked) [.signal]) terminated) := rfl
  have noticed : Noticed (reached start untilBlocked) terminated := by
    refine .inr ⟨0, .ok, false, rfl, rfl, ?_⟩
    rintro ⟨status, mem⟩
    exact absurd mem (by simp [terminated])
  exact ⟨ended, ((termination_honoured_iff arrived delivered ran (by decide)).2 ended).mpr noticed⟩

/-- The calls up to the check of the flag, which is found clear. -/
def untilChecked : List Move := List.replicate 8 .call

def undisturbed : List Move :=
  [.call, .exit 0 (.exited 0), .call, .call, .exit 1 (.exited 0), .call, .call,
    .exit 2 (.exited 0), .call, .call]

/-- A request between the check and the first `waitpid` is swallowed: the dispatcher waits
for its children to finish, sends no SIGTERM, and returns 0. -/
theorem request_behind_check_swallowed :
    Schedule.run step start (untilChecked ++ .signal :: undisturbed) =
        some (reached start (untilChecked ++ .signal :: undisturbed)) ∧
      (∀ i, ((reached start untilChecked).children i).process = .running) ∧
      Ended (reached start (untilChecked ++ .signal :: undisturbed)) ∧
      (reached start (untilChecked ++ .signal :: undisturbed)).pc = .returned .ok ∧
      (∀ i, ((reached start (untilChecked ++ .signal :: undisturbed)).children i).termSent =
        false) ∧
      ¬ Honoured (reached start untilChecked)
        (reached start (untilChecked ++ .signal :: undisturbed)) := by
  have code : (reached start (untilChecked ++ .signal :: undisturbed)).pc = .returned .ok := rfl
  refine ⟨rfl, by decide, ended_of_idle rfl (by decide), code, by decide, ?_⟩
  rintro ⟨interrupted, -⟩
  rw [code] at interrupted
  cases interrupted

end StreamDataPipeline.PipelineDispatcher.Termination
