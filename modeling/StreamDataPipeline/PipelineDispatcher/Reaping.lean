/- What a run of the dispatcher leaves behind: descriptors, children and the exit code. -/

import StreamDataPipeline.PipelineDispatcher.Accounting

/-!
A run is recorded while it goes on: which calls failed, whether an interrupt was observed, and what
happened to each child. The record is never looked at by the dispatcher.
-/

set_option autoImplicit false
set_option relaxedAutoImplicit false

namespace StreamDataPipeline.PipelineDispatcher.Reaping

open Foundations Supervision Accounting

/-- How often a child was forked and reaped, and the status it exited with. -/
structure ChildLog where
  forks : Nat
  reaps : Nat
  status : Option Status

structure History where
  /-- A `pipe` or a `fork` failed. -/
  setupFailed : Bool
  /-- The check found the flag set, or `waitpid` returned EINTR with the flag set. -/
  observed : Bool
  logs : Fin pdChildCount → ChildLog

def blank : History := ⟨false, false, fun _ => ⟨0, 0, none⟩⟩

def History.setLog (h : History) (i : Fin pdChildCount) (log : ChildLog) : History :=
  { h with logs := Function.update h.logs i log }

/-- What the answer of `waitpid` for a child adds. -/
def History.answered (h : History) (i : Fin pdChildCount) (interrupted : Bool) :
    WaitResult → History
  | .status _ => h.setLog i { h.logs i with reaps := (h.logs i).reaps + 1 }
  | .eintr => { h with observed := h.observed || interrupted }
  | .echild | .blocks => h

/-- What a call adds that does not fail. -/
def recordCall (s : State) (h : History) : History :=
  match s.pc with
  | .spawn i =>
      if hi : i < pdChildCount then
        h.setLog ⟨i, hi⟩ { h.logs ⟨i, hi⟩ with forks := (h.logs ⟨i, hi⟩).forks + 1 }
      else h
  | .check => { h with observed := h.observed || s.interrupted }
  | .wait i _ | .killWait i _ =>
      if hi : i < pdChildCount then
        if (s.children ⟨i, hi⟩).hasPid then
          h.answered ⟨i, hi⟩ s.interrupted (waitpid (s.children ⟨i, hi⟩).process false)
        else h
      else h
  | .blocked i _ signalled =>
      if hi : i < pdChildCount then
        h.answered ⟨i, hi⟩ s.interrupted (waitpid (s.children ⟨i, hi⟩).process signalled)
      else h
  | _ => h

def record (s : State) (h : History) : Move → History
  | .call => recordCall s h
  | .fail => { h with setupFailed := true }
  | .signal => h
  | .exit i status => h.setLog i { h.logs i with status := some status }

/-- A move of the dispatcher with the record of it. -/
def recorded (x : State × History) (move : Move) : Option (State × History) :=
  (step x.1 move).map fun s => (s, record x.1 x.2 move)

section Descriptors

/-- Never opened, open, and closed after having been opened once. -/
def fresh : Descriptor := ⟨false, 0, 0⟩
def openOnce : Descriptor := ⟨true, 1, 0⟩
def closedOnce : Descriptor := ⟨false, 1, 1⟩

/-- Where a descriptor is at each call. -/
def DescriptorAt (e : Fin 4) (d : Descriptor) : Pc → Prop
  | .pipe1 => d = fresh
  | .pipe2 => d = if e.val < 2 then openOnce else fresh
  | .spawn _ | .closePipes => d = openOnce
  | .cleanup _ => d = openOnce ∨ d = closedOnce
  | .returned _ => d = fresh ∨ d = closedOnce
  | _ => d = closedOnce

def DescriptorsAt (s : State) : Prop := ∀ e, DescriptorAt e (s.fds e) s.pc

theorem waitChild_fds {s s' : State} {i : Fin pdChildCount} {rc : PdExitCode} {signalled : Bool}
    (waited : waitChild s i rc signalled = some s') :
    s'.fds = s.fds ∧ ∀ e d, d = closedOnce → DescriptorAt e d s'.pc := by
  unfold waitChild at waited
  split at waited
  · cases waited
    exact ⟨rfl, fun _ _ closed => closed⟩
  · split_ifs at waited <;> cases waited <;> exact ⟨rfl, fun _ _ closed => closed⟩
  · cases waited
    exact ⟨rfl, fun _ _ closed => closed⟩
  · cases waited

theorem killWaitChild_fds {s s' : State} {i : Fin pdChildCount} {rc : PdExitCode}
    (waited : killWaitChild s i rc = some s') :
    s'.fds = s.fds ∧ ∀ e d, d = closedOnce → DescriptorAt e d s'.pc := by
  unfold killWaitChild at waited
  split at waited <;> cases waited <;> exact ⟨rfl, fun _ _ closed => closed⟩

theorem closePipeFds_descriptor {s : State} {e : Fin 4} :
    (s.fds e = openOnce ∨ s.fds e = closedOnce → (closePipeFds s).fds e = closedOnce) ∧
      (s.fds e = fresh → (closePipeFds s).fds e = fresh) := by
  refine ⟨?_, ?_⟩
  · rintro (opened | closed)
    · simp [closePipeFds, opened, openOnce, closedOnce]
    · simp [closePipeFds, closed, closedOnce]
  · intro never
    simp [closePipeFds, never, fresh]

theorem openPipe_fds (s : State) (ends : Fin 4 → Bool) (e : Fin 4) :
    (openPipe s ends).fds e =
      if ends e then ⟨true, (s.fds e).opened + 1, (s.fds e).closed⟩ else s.fds e := rfl

theorem callStep_descriptors {s s' : State} (fds : DescriptorsAt s)
    (called : callStep s = some s') : DescriptorsAt s' := by
  unfold DescriptorsAt at fds
  cases callStep_cases called with
  | pipe1 pc =>
      intro e
      have before := fds e
      rw [pc, DescriptorAt] at before
      rw [State.goto_fds, State.goto_pc, openPipe_fds, before, DescriptorAt]
      by_cases first : e.val < 2
      · have here : e < 2 := first
        rw [if_pos first, if_pos (decide_eq_true here)]
        rfl
      · have other : ¬ e < 2 := first
        rw [if_neg first, if_neg fun opens => other (of_decide_eq_true opens)]
  | pipe2 pc =>
      intro e
      have before := fds e
      rw [pc, DescriptorAt] at before
      rw [State.goto_fds, State.goto_pc, openPipe_fds, before, DescriptorAt]
      by_cases first : e.val < 2
      · have other : ¬ 2 ≤ e := Nat.not_le.mpr first
        rw [if_pos first, if_neg fun opens => other (of_decide_eq_true opens)]
      · have here : 2 ≤ e := Nat.not_lt.mp first
        rw [if_neg first, if_pos (decide_eq_true here)]
        rfl
  | closePipes pc =>
      rw [pc] at fds
      exact fun e => closePipeFds_descriptor.1 (.inl (fds e))
  | check pc =>
      rw [pc] at fds
      intro e
      cases s.interrupted with
      | true => exact .inr (fds e)
      | false => exact fds e
  | wait pc h waited =>
      obtain ⟨same, closed⟩ := waitChild_fds waited
      intro e
      rw [same]
      rcases pc with ⟨pc, -⟩ | pc <;> rw [pc] at fds <;> exact closed e _ (fds e)
  | cleanup pc =>
      rw [pc] at fds
      exact fun e => closePipeFds_descriptor.1 (fds e)
  | killWait pc h waited =>
      obtain ⟨same, closed⟩ := killWaitChild_fds waited
      intro e
      rw [same]
      rw [pc] at fds
      exact closed e _ (fds e)
  | waitEnds pc | killWaitEnds pc =>
      rw [pc] at fds
      exact fun e => .inr (fds e)
  | spawn pc | spawned pc | block pc | waitSkips pc | kill pc | killSkips pc | killEnds pc
  | killWaitSkips pc =>
      rw [pc] at fds
      exact fds

theorem step_descriptors {s s' : State} {move : Move} (fds : DescriptorsAt s)
    (stepped : step s move = some s') : DescriptorsAt s' := by
  cases move with
  | call => exact callStep_descriptors fds stepped
  | fail =>
      unfold DescriptorsAt at fds
      simp only [step, failStep] at stepped
      split at stepped
      · rename_i pc
        rw [pc] at fds
        cases stepped
        exact fun e => .inl (fds e)
      · rename_i pc
        rw [pc] at fds
        cases stepped
        intro e
        have before := fds e
        by_cases first : e.val < 2
        · rw [DescriptorAt, if_pos first] at before
          exact .inr (closePipeFds_descriptor.1 (.inl before))
        · rw [DescriptorAt, if_neg first] at before
          exact .inl (closePipeFds_descriptor.2 before)
      · rename_i i pc
        rw [pc] at fds
        split_ifs at stepped
        cases stepped
        exact fun e => .inl (fds e)
      · cases stepped
  | signal =>
      obtain ⟨same, -, -, ⟨i, rc, signalled, pc, pc'⟩ | ⟨-, pc⟩⟩ := signalStep_cases stepped
      · unfold DescriptorsAt at fds ⊢
        rw [pc] at fds
        rw [pc', same]
        exact fds
      · unfold DescriptorsAt
        rw [pc, same]
        exact fds
  | exit i status =>
      obtain ⟨-, rfl⟩ := exitStep_cases stepped
      exact fds

end Descriptors

section Children

/-- What is on record about a child, by what its process is. -/
def Tracked (process : Process) (log : ChildLog) : Prop :=
  match process with
  | .unborn => log = ⟨0, 0, none⟩
  | .running => log = ⟨1, 0, none⟩
  | .zombie status => log = ⟨1, 0, some status⟩
  | .reaped => log.forks = 1 ∧ log.reaps = 1

def AllTracked (s : State) (h : History) : Prop :=
  ∀ i, Tracked (s.children i).process (h.logs i)

/-- The processes after a call of `waitpid` for a child. -/
def processesAfter (children : Children) (i : Fin pdChildCount) (answer : WaitResult) :
    Fin pdChildCount → Process :=
  match answer with
  | .status _ => Function.update (fun j => (children j).process) i .reaped
  | _ => fun j => (children j).process

private theorem processes_setChild (s : State) (i : Fin pdChildCount) (child : Child) (pc : Pc) :
    (fun j => (((s.setChild i child).goto pc).children j).process) =
      Function.update (fun j => (s.children j).process) i child.process := by
  funext j
  by_cases same : j = i
  · subst same
    simp
  · simp [Function.update_of_ne same]

theorem waitChild_processes {s s' : State} {i : Fin pdChildCount} {rc : PdExitCode}
    {signalled : Bool} (waited : waitChild s i rc signalled = some s') :
    (fun j => (s'.children j).process) =
      processesAfter s.children i (waitpid (s.children i).process signalled) := by
  unfold waitChild at waited
  split at waited
  · rename_i status answer
    cases waited
    rw [answer]
    exact processes_setChild s i _ _
  · rename_i answer
    rw [answer]
    split_ifs at waited <;> cases waited <;> rfl
  · rename_i answer
    rw [answer]
    cases waited
    rfl
  · cases waited

theorem killWaitChild_processes {s s' : State} {i : Fin pdChildCount} {rc : PdExitCode}
    (waited : killWaitChild s i rc = some s') :
    (fun j => (s'.children j).process) =
      processesAfter s.children i (waitpid (s.children i).process false) := by
  unfold killWaitChild at waited
  split at waited
  · rename_i status answer
    cases waited
    rw [answer]
    exact processes_setChild s i _ _
  · cases waited
  · rename_i noStatus _
    cases waited
    have kept : processesAfter s.children i (waitpid (s.children i).process false) =
        fun j => (s.children j).process := by
      cases answer : waitpid (s.children i).process false with
      | status status => exact absurd answer (noStatus status)
      | eintr => rfl
      | echild => rfl
      | blocks => rfl
    rw [kept, processes_setChild]
    exact Function.update_eq_self i _

theorem AllTracked.of_processes {s s' : State} {h : History} (all : AllTracked s h)
    (same : ∀ j, (s'.children j).process = (s.children j).process) : AllTracked s' h := by
  intro j
  rw [same j]
  exact all j

theorem AllTracked.setLog {s s' : State} {h : History} (all : AllTracked s h)
    {i : Fin pdChildCount} {log : ChildLog} (own : Tracked (s'.children i).process log)
    (others : ∀ j ≠ i, (s'.children j).process = (s.children j).process) :
    AllTracked s' (h.setLog i log) := by
  intro j
  by_cases same : j = i
  · subst same
    simpa [History.setLog] using own
  · rw [others j same]
    simpa [History.setLog, Function.update_of_ne same] using all j

theorem tracked_answered {s s' : State} {h : History} (all : AllTracked s h)
    (i : Fin pdChildCount) (interrupted signalled : Bool)
    (processes : (fun j => (s'.children j).process) =
      processesAfter s.children i (waitpid (s.children i).process signalled)) :
    AllTracked s'
      (h.answered i interrupted (waitpid (s.children i).process signalled)) := by
  cases process : (s.children i).process with
  | zombie status =>
      have known := all i
      rw [process] at known processes
      have log : h.logs i = ⟨1, 0, some status⟩ := known
      refine all.setLog ?_ fun j other => ?_
      · rw [congrFun processes i]
        simp [waitpid, processesAfter, Tracked, log]
      · rw [congrFun processes j]
        simp [waitpid, processesAfter, Function.update_of_ne other]
  | running =>
      rw [process] at processes
      cases signalled <;> exact all.of_processes (congrFun processes)
  | unborn =>
      rw [process] at processes
      exact all.of_processes (congrFun processes)
  | reaped =>
      rw [process] at processes
      exact all.of_processes (congrFun processes)

end Children

section Places

/-- Nothing failed, and no interrupt was observed. -/
def Clear (h : History) : Prop := h.setupFailed = false ∧ h.observed = false

/-- The code that is returned after a termination tells what it was for. -/
def Aborted (rc : PdExitCode) (h : History) : Prop :=
  rc = .setupError ∧ h.setupFailed = true ∧ h.observed = false ∨
    rc = .interrupted ∧ h.setupFailed = false ∧ h.observed = true

/-- The code is that of the exits of the children below `n`. -/
def Verdict (rc : PdExitCode) (n : Nat) (h : History) : Prop :=
  (rc = .ok ∧ ∀ j : Fin pdChildCount, j.val < n → (h.logs j).status = some (.exited 0)) ∨
    rc = .childError ∧
      ∃ j : Fin pdChildCount, j.val < n ∧ (h.logs j).status ≠ some (.exited 0)

def VerdictAt (h : History) : Pc → Prop
  | .wait i rc | .blocked i rc _ => Verdict rc i h
  | .returned rc => Verdict rc pdChildCount h
  | _ => True

/-- Where the dispatcher is, and what the record says by then. -/
structure Placed (s : State) (h : History) : Prop where
  tracked : AllTracked s h
  flagged : ∀ i rc, s.pc = .blocked i rc true → s.interrupted = true
  place : (Clear h ∧ InSetup s) ∨ (Clear h ∧ InWait s ∧ VerdictAt h s.pc) ∨
    ∃ lo hi rc, InKill lo hi rc s ∧ Aborted rc h

theorem Verdict.next {h h' : History} {rc : PdExitCode} {i : Nat} (hi : i < pdChildCount)
    {status : Status} (verdict : Verdict rc i h)
    (own : (h.logs ⟨i, hi⟩).status = some status)
    (same : ∀ j, (h'.logs j).status = (h.logs j).status) :
    Verdict (statusCode rc status) (i + 1) h' := by
  have failed : status ≠ .exited 0 → Verdict .childError (i + 1) h' := by
    intro other
    refine .inr ⟨rfl, ⟨i, hi⟩, Nat.lt_succ_self i, ?_⟩
    rw [same, own]
    exact fun equal => other (Option.some.inj equal)
  rcases verdict with ⟨rfl, good⟩ | ⟨rfl, j, below, bad⟩
  · rcases status with (_ | code) | signo
    · refine .inl ⟨rfl, fun j below => ?_⟩
      rw [same]
      by_cases last : j.val = i
      · obtain rfl : j = ⟨i, hi⟩ := Fin.ext last
        exact own
      · exact good j (by omega)
    · exact failed (by simp)
    · exact failed (by simp)
  · have code : statusCode .childError status = .childError := by
      rcases status with (_ | code) | signo <;> rfl
    rw [code]
    exact .inr ⟨rfl, j, Nat.lt_succ_of_lt below, by rwa [same]⟩

theorem answered_status (h : History) (i j : Fin pdChildCount) (interrupted : Bool)
    (answer : WaitResult) :
    ((h.answered i interrupted answer).logs j).status = (h.logs j).status := by
  cases answer with
  | status status =>
      by_cases same : j = i <;>
        simp [History.answered, History.setLog, same, Function.update_of_ne]
  | eintr => rfl
  | echild => rfl
  | blocks => rfl

theorem waitChild_zombie {s : State} {i : Fin pdChildCount} {status : Status}
    (zombie : (s.children i).process = .zombie status) (rc : PdExitCode) (signalled : Bool) :
    waitChild s i rc signalled =
      some ((s.setChild i (s.children i).reap).goto (.wait (i + 1) (statusCode rc status))) := by
  unfold waitChild
  rw [zombie]
  rfl

theorem placed_zombie {s : State} {h : History} {i : Nat} (hi : i < pdChildCount)
    {rc : PdExitCode} {status : Status} (tracked : AllTracked s h) (clear : Clear h)
    (normal : rc ≠ .interrupted) (layout : Layout s.children i pdChildCount)
    (verdict : Verdict rc i h) (zombie : (s.children ⟨i, hi⟩).process = .zombie status)
    (interrupted signalled : Bool) :
    Placed ((s.setChild ⟨i, hi⟩ (s.children ⟨i, hi⟩).reap).goto
        (.wait (i + 1) (statusCode rc status)))
      (h.answered ⟨i, hi⟩ interrupted (waitpid (s.children ⟨i, hi⟩).process signalled)) := by
  have answer : waitpid (s.children ⟨i, hi⟩).process signalled = .status status := by
    rw [zombie]
    rfl
  have own := tracked ⟨i, hi⟩
  rw [zombie] at own
  have known : (h.logs ⟨i, hi⟩).status = some status := congrArg ChildLog.status own
  refine ⟨?_, ?_, .inr (.inl ⟨?_, ?_, ?_⟩)⟩
  · exact tracked_answered tracked _ _ _
      (waitChild_processes (waitChild_zombie zombie rc signalled))
  · intro j rc' blocked
    cases blocked
  · rw [answer]
    exact clear
  · exact ⟨statusCode_ne_interrupted normal status, layout.reap hi⟩
  · exact verdict.next hi known (answered_status h _ · _ _)

theorem tracked_spawn {s : State} {h : History} {i : Nat} (hi : i < pdChildCount)
    (tracked : AllTracked s h) (unborn : (s.children ⟨i, hi⟩).process = .unborn) :
    AllTracked ((s.setChild ⟨i, hi⟩ ⟨true, .running, false⟩).goto (.spawn (i + 1)))
      (h.setLog ⟨i, hi⟩ { h.logs ⟨i, hi⟩ with forks := (h.logs ⟨i, hi⟩).forks + 1 }) := by
  have none_yet := tracked ⟨i, hi⟩
  rw [unborn] at none_yet
  have log : h.logs ⟨i, hi⟩ = ⟨0, 0, none⟩ := none_yet
  refine tracked.setLog ?_ fun j other => ?_
  · simp [Tracked, log]
  · simp [Function.update_of_ne other]

theorem callStep_placed_setup {s s' : State} {h : History} (tracked : AllTracked s h)
    (clear : Clear h) (setup : InSetup s) (called : callStep s = some s') :
    Placed s' (recordCall s h) := by
  unfold InSetup at setup
  unfold callStep at called
  unfold recordCall
  split at setup
  · rename_i pc
    simp only [pc] at called ⊢
    cases called
    exact ⟨tracked, by rintro _ _ ⟨⟩, .inl ⟨clear, setup⟩⟩
  · rename_i pc
    simp only [pc] at called ⊢
    cases called
    exact ⟨tracked, by rintro _ _ ⟨⟩,
      .inl ⟨clear, Nat.zero_le _, setup⟩⟩
  · rename_i i pc
    obtain ⟨bound, layout⟩ := setup
    simp only [pc] at called ⊢
    split_ifs at called ⊢ with hi
    · cases called
      have unborn := (layout.unborn ⟨i, hi⟩ (Nat.zero_le _) (Nat.le_refl _)).2
      exact ⟨tracked_spawn hi tracked unborn, by rintro _ _ ⟨⟩,
        .inl ⟨clear, hi, layout.born hi rfl rfl⟩⟩
    · cases called
      obtain rfl : i = pdChildCount := Nat.le_antisymm bound (Nat.not_lt.mp hi)
      exact ⟨tracked, by rintro _ _ ⟨⟩, .inl ⟨clear, layout⟩⟩
  · rename_i pc
    simp only [pc] at called ⊢
    cases called
    exact ⟨tracked, by rintro _ _ ⟨⟩, .inl ⟨clear, setup⟩⟩
  · rename_i pc
    simp only [pc] at called ⊢
    cases called
    cases flag : s.interrupted with
    | true =>
        refine ⟨tracked, by rintro _ _ ⟨⟩, .inr (.inr ⟨0, pdChildCount,
          .interrupted, ⟨⟨Nat.zero_le _, Nat.le_refl _⟩, rfl, setup⟩, .inr ⟨rfl, clear.1, ?_⟩⟩)⟩
        exact Bool.or_true _
    | false =>
        refine ⟨tracked, by rintro _ _ ⟨⟩,
          .inr (.inl ⟨⟨clear.1, ?_⟩, ⟨by simp, setup⟩, .inl ⟨rfl, fun j below => ?_⟩⟩)⟩
        · rw [Bool.or_false]
          exact clear.2
        · exact absurd below (Nat.not_lt_zero _)
  · exact absurd setup id

theorem callStep_placed_wait {s s' : State} {h : History} (tracked : AllTracked s h)
    (flagged : ∀ i rc, s.pc = .blocked i rc true → s.interrupted = true) (clear : Clear h)
    (waits : InWait s) (verdict : VerdictAt h s.pc) (called : callStep s = some s') :
    Placed s' (recordCall s h) := by
  unfold InWait at waits
  unfold callStep at called
  unfold recordCall
  split at waits
  · rename_i i rc pc
    obtain ⟨normal, layout⟩ := waits
    rw [pc] at verdict
    simp only [pc] at called ⊢
    split_ifs at called ⊢ with hi hasPid
    · rcases isAlive_cases (layout.alive ⟨i, hi⟩ (Nat.le_refl i) hi).2 with
        running | ⟨status, zombie⟩
      · have blocks : waitChild s ⟨i, hi⟩ rc false = none := by
          unfold waitChild
          rw [running]
          rfl
        rw [blocks] at called
        cases called
        rw [running]
        exact ⟨tracked, by rintro _ _ ⟨⟩,
          .inr (.inl ⟨clear, ⟨hi, normal, layout⟩, verdict⟩)⟩
      · rw [waitChild_zombie zombie] at called
        cases called
        exact placed_zombie hi tracked clear normal layout verdict zombie _ _
    · exact absurd (layout.alive ⟨i, hi⟩ (Nat.le_refl i) hi).1 hasPid
    · cases called
      have all : pdChildCount ≤ i := Nat.not_lt.mp hi
      refine ⟨tracked, by rintro _ _ ⟨⟩,
        .inr (.inl ⟨clear, ⟨normal, layout.all all⟩, ?_⟩)⟩
      rcases verdict with ⟨ok, good⟩ | ⟨bad, j, -, other⟩
      · exact .inl ⟨ok, fun j below => good j (Nat.lt_of_lt_of_le below all)⟩
      · exact .inr ⟨bad, j, j.isLt, other⟩
  · rename_i i rc signalled pc
    obtain ⟨hi, normal, layout⟩ := waits
    rw [pc] at verdict
    simp only [pc, dif_pos hi] at called ⊢
    rcases isAlive_cases (layout.alive ⟨i, hi⟩ (Nat.le_refl i) hi).2 with
      running | ⟨status, zombie⟩
    · cases signalled with
      | false =>
          unfold waitChild at called
          rw [running] at called
          cases called
      | true =>
          -- a call that was signalled returns EINTR, and the signal has set the flag
          have flag := flagged i rc pc
          unfold waitChild at called
          rw [running] at called
          simp only [waitpid, if_true, flag] at called
          cases called
          rw [running]
          refine ⟨tracked, by rintro _ _ ⟨⟩, .inr (.inr ⟨i, pdChildCount,
            .interrupted, ⟨⟨Nat.le_of_lt hi, Nat.le_refl _⟩, rfl, layout, ?_⟩,
            .inr ⟨rfl, clear.1, ?_⟩⟩)⟩
          · intro j _ _ below
            exact absurd below (Nat.not_lt_zero _)
          · simp [waitpid, History.answered, flag]
    · rw [waitChild_zombie zombie] at called
      cases called
      exact placed_zombie hi tracked clear normal layout verdict zombie _ _
  · rename_i rc pc
    simp only [pc] at called
    cases called
  · exact absurd waits id

theorem not_blocked_of_kill {s : State} {lo hi : Nat} {rc : PdExitCode}
    (kills : InKill lo hi rc s) (i : Nat) (code : PdExitCode) (signalled : Bool) :
    s.pc ≠ .blocked i code signalled := by
  intro blocked
  have place := kills.2
  rw [blocked] at place
  exact place

/-- A call of the termination reaps at most one child, and observes nothing new. -/
theorem callStep_kill_record {s s' : State} {h : History} {lo hi : Nat} {rc : PdExitCode}
    (tracked : AllTracked s h) (kills : InKill lo hi rc s) (called : callStep s = some s') :
    AllTracked s' (recordCall s h) ∧ (recordCall s h).setupFailed = h.setupFailed ∧
      (recordCall s h).observed = h.observed := by
  obtain ⟨-, place⟩ := kills
  unfold callStep at called
  unfold recordCall
  split at place
  · rename_i pc
    simp only [pc] at called ⊢
    cases called
    exact ⟨tracked, trivial, trivial⟩
  · rename_i i _ pc
    simp only [pc] at called ⊢
    split_ifs at called with hi hasPid
    · cases called
      refine ⟨tracked.of_processes fun j => ?_, trivial, trivial⟩
      by_cases same : j = ⟨i, hi⟩
      · subst same
        simp
      · simp [Function.update_of_ne same]
    · cases called
      exact ⟨tracked, trivial, trivial⟩
    · cases called
      exact ⟨tracked, trivial, trivial⟩
  · rename_i i _ pc
    simp only [pc] at called ⊢
    split_ifs at called ⊢ with hi hasPid
    · refine ⟨tracked_answered tracked _ _ _ (killWaitChild_processes called), ?_⟩
      cases process : (s.children ⟨i, hi⟩).process <;> exact ⟨rfl, rfl⟩
    · cases called
      exact ⟨tracked, rfl, rfl⟩
    · cases called
      exact ⟨tracked, rfl, rfl⟩
  · rename_i pc
    simp only [pc] at called
    cases called
  · exact absurd place id

theorem failStep_placed {s s' : State} {h : History} (tracked : AllTracked s h) (clear : Clear h)
    (setup : InSetup s) (failed : failStep s = some s') :
    Placed s' { h with setupFailed := true } := by
  have aborted : Aborted .setupError { h with setupFailed := true } :=
    .inl ⟨rfl, rfl, clear.2⟩
  unfold InSetup at setup
  unfold failStep at failed
  split at setup
  · rename_i pc
    simp only [pc] at failed
    cases failed
    refine ⟨tracked, by rintro _ _ ⟨⟩, .inr (.inr ⟨0, 0, _, ⟨by decide, rfl, setup, ?_⟩, aborted⟩)⟩
    exact fun j _ below => absurd below (Nat.not_lt_zero _)
  · rename_i pc
    simp only [pc] at failed
    cases failed
    refine ⟨tracked, by rintro _ _ ⟨⟩, .inr (.inr ⟨0, 0, _, ⟨by decide, rfl, setup, ?_⟩, aborted⟩)⟩
    exact fun j _ below => absurd below (Nat.not_lt_zero _)
  · rename_i i pc
    simp only [pc] at failed
    split_ifs at failed
    cases failed
    exact ⟨tracked, by rintro _ _ ⟨⟩,
      .inr (.inr ⟨0, i, _, ⟨⟨Nat.zero_le _, setup.1⟩, rfl, setup.2⟩, aborted⟩)⟩
  · rename_i pc
    simp only [pc] at failed
    cases failed
  · rename_i pc
    simp only [pc] at failed
    cases failed
  · exact absurd setup id

theorem inSetup_of_failStep {s s' : State} {h : History} (placed : Placed s h)
    (failed : failStep s = some s') : Clear h ∧ InSetup s := by
  rcases placed.place with ⟨clear, setup⟩ | ⟨-, waits, -⟩ | ⟨lo, hi, rc, kills, -⟩
  · exact ⟨clear, setup⟩
  · unfold InWait at waits
    unfold failStep at failed
    cases pc : s.pc <;> simp [pc] at waits failed
  · have place := kills.2
    unfold failStep at failed
    cases pc : s.pc <;> simp [pc] at place failed

theorem signalStep_placed {s s' : State} {h : History} (placed : Placed s h)
    (delivered : signalStep s = some s') : Placed s' h := by
  obtain ⟨-, children, flag, pc⟩ := signalStep_cases delivered
  refine ⟨placed.tracked.of_processes fun i => by rw [children], fun _ _ _ => flag, ?_⟩
  rcases pc with ⟨i, rc, signalled, pc, pc'⟩ | ⟨-, pc⟩
  · rcases placed.place with ⟨-, setup⟩ | ⟨clear, waits, verdict⟩ | ⟨lo, hi, rc, kills, -⟩
    · unfold InSetup at setup
      rw [pc] at setup
      exact absurd setup id
    · unfold InWait at waits
      rw [pc] at waits verdict
      refine .inr (.inl ⟨clear, ?_, ?_⟩)
      · unfold InWait
        rw [pc', children]
        exact waits
      · rw [pc']
        exact verdict
    · exact absurd pc (not_blocked_of_kill kills _ _ _)
  · rcases placed.place with ⟨clear, setup⟩ | ⟨clear, waits, verdict⟩ | ⟨lo, hi, rc, kills, aborted⟩
    · refine .inl ⟨clear, ?_⟩
      unfold InSetup
      rw [pc, children]
      exact setup
    · refine .inr (.inl ⟨clear, ?_, pc ▸ verdict⟩)
      unfold InWait
      rw [pc, children]
      exact waits
    · refine .inr (.inr ⟨lo, hi, rc, ⟨kills.1, ?_⟩, aborted⟩)
      rw [pc, children]
      exact kills.2

theorem exitStep_placed {s s' : State} {h : History} {i : Fin pdChildCount} {status : Status}
    (placed : Placed s h) (exited : exitStep s i status = some s') :
    Placed s' (h.setLog i { h.logs i with status := some status }) := by
  obtain ⟨running, same⟩ := exitStep_cases exited
  have pc : s'.pc = s.pc := by rw [same]; rfl
  refine ⟨?_, ?_, ?_⟩
  · have known := placed.tracked i
    rw [running] at known
    have log : h.logs i = ⟨1, 0, none⟩ := known
    refine placed.tracked.setLog ?_ fun j other => ?_
    · simp [same, Tracked, log]
    · simp [same, Function.update_of_ne other]
  · intro j rc blocked
    rw [same]
    exact placed.flagged j rc (pc ▸ blocked)
  · rcases placed.place with ⟨clear, setup⟩ | ⟨clear, waits, verdict⟩ | ⟨lo, hi, rc, kills, aborted⟩
    · exact .inl ⟨clear, exitStep_setup setup exited⟩
    · refine .inr (.inl ⟨clear, exitStep_wait waits exited, ?_⟩)
      rw [pc]
      -- the children whose statuses are in the code have been reaped, and this one runs
      have kept : ∀ {n rc}, (∀ j : Fin pdChildCount, j.val < n →
          (s.children j).process = .reaped) → Verdict rc n h →
          Verdict rc n (h.setLog i { h.logs i with status := some status }) := by
        intro n rc gone verdict
        have other : ∀ j : Fin pdChildCount, j.val < n → j ≠ i := by
          rintro j below rfl
          rw [gone j below] at running
          cases running
        have old : ∀ j : Fin pdChildCount, j.val < n →
            ((h.setLog i { h.logs i with status := some status }).logs j).status =
              (h.logs j).status := by
          intro j below
          simp [History.setLog, Function.update_of_ne (other j below)]
        rcases verdict with ⟨ok, good⟩ | ⟨bad, j, below, failed⟩
        · exact .inl ⟨ok, fun j below => (old j below).trans (good j below)⟩
        · exact .inr ⟨bad, j, below, by rwa [old j below]⟩
      unfold InWait at waits
      cases place : s.pc with
      | wait n rc =>
          rw [place] at waits verdict
          exact kept (fun j below => (waits.2.gone j below).2) verdict
      | blocked n rc signalled =>
          rw [place] at waits verdict
          exact kept (fun j below => (waits.2.2.gone j below).2) verdict
      | returned rc =>
          rw [place] at waits verdict
          exact kept (fun j below => (waits.2.gone j below).2) verdict
      | _ => trivial
    · exact .inr (.inr ⟨lo, hi, rc, exitStep_kill kills exited, aborted⟩)

theorem step_placed {s s' : State} {h : History} {move : Move} (placed : Placed s h)
    (stepped : step s move = some s') : Placed s' (record s h move) := by
  cases move with
  | call =>
      rcases placed.place with ⟨clear, setup⟩ | ⟨clear, waits, verdict⟩ |
        ⟨lo, hi, rc, kills, aborted⟩
      · exact callStep_placed_setup placed.tracked clear setup stepped
      · exact callStep_placed_wait placed.tracked placed.flagged clear waits verdict stepped
      · obtain ⟨tracked, failed, observed⟩ := callStep_kill_record placed.tracked kills stepped
        have kills' := (callStep_kill kills stepped).2
        refine ⟨tracked, fun i code blocked => absurd blocked (not_blocked_of_kill kills' _ _ _),
          .inr (.inr ⟨lo, hi, rc, kills', ?_⟩)⟩
        unfold Aborted
        rw [record, failed, observed]
        exact aborted
  | fail =>
      obtain ⟨clear, setup⟩ := inSetup_of_failStep placed stepped
      exact failStep_placed placed.tracked clear setup stepped
  | signal => exact signalStep_placed placed stepped
  | exit i status => exact exitStep_placed placed stepped

end Places

section Returns

theorem descriptorsAt_start : DescriptorsAt start := fun _ => rfl

theorem placed_start : Placed start blank where
  tracked _ := rfl
  flagged _ _ blocked := by cases blocked
  place := by
    refine .inl ⟨⟨rfl, rfl⟩, ?_, ?_, ?_⟩
    · exact fun j below => absurd below (Nat.not_lt_zero _)
    · exact fun j _ below => absurd below (Nat.not_lt_zero _)
    · exact fun j _ _ => ⟨rfl, rfl⟩

/-- What was opened has been closed exactly once. -/
def Closed (d : Descriptor) : Prop := d.held = false ∧ d.opened ≤ 1 ∧ d.closed = d.opened

/-- A child that was forked has been reaped exactly once. -/
def ChildLog.Settled (log : ChildLog) : Prop := log.forks ≤ 1 ∧ log.reaps = log.forks

instance (d : Descriptor) : Decidable (Closed d) := inferInstanceAs (Decidable (_ ∧ _ ∧ _))
instance (log : ChildLog) : Decidable log.Settled := inferInstanceAs (Decidable (_ ∧ _))

theorem closed_of_returned {s : State} {rc : PdExitCode} (fds : DescriptorsAt s)
    (returned : s.pc = .returned rc) (e : Fin 4) : Closed (s.fds e) := by
  have last := fds e
  rw [returned] at last
  rcases last with never | closed
  · rw [never]
    decide
  · rw [closed]
    decide

theorem settled_of_layout {s : State} {h : History} {n : Nat} (tracked : AllTracked s h)
    (layout : Layout s.children n n) (i : Fin pdChildCount) :
    (s.children i).hasPid = false ∧ (h.logs i).Settled := by
  have known := tracked i
  rcases Nat.lt_or_ge i.val n with below | beyond
  · obtain ⟨noPid, reaped⟩ := layout.gone i below
    rw [reaped] at known
    exact ⟨noPid, Nat.le_of_eq known.1, known.2.trans known.1.symm⟩
  · obtain ⟨noPid, unborn⟩ := layout.unborn i beyond beyond
    rw [unborn] at known
    have log : h.logs i = ⟨0, 0, none⟩ := known
    rw [log]
    exact ⟨noPid, Nat.zero_le 1, rfl⟩

theorem settled_of_returned {s : State} {h : History} {rc : PdExitCode} (placed : Placed s h)
    (returned : s.pc = .returned rc) (i : Fin pdChildCount) :
    (s.children i).hasPid = false ∧ (h.logs i).Settled := by
  rcases placed.place with ⟨-, setup⟩ | ⟨-, waits, -⟩ | ⟨lo, hi, code, ⟨-, place⟩, -⟩
  · unfold InSetup at setup
    rw [returned] at setup
    exact absurd setup id
  · unfold InWait at waits
    rw [returned] at waits
    exact settled_of_layout placed.tracked waits.2 i
  · rw [returned] at place
    exact settled_of_layout placed.tracked place.2.1 i

/-- The three ways to return. -/
theorem code_of_returned {s : State} {h : History} {rc : PdExitCode} (placed : Placed s h)
    (returned : s.pc = .returned rc) :
    (Clear h ∧ Verdict rc pdChildCount h) ∨ Aborted rc h := by
  rcases placed.place with ⟨-, setup⟩ | ⟨clear, -, verdict⟩ | ⟨lo, hi, code, ⟨-, place⟩, aborted⟩
  · unfold InSetup at setup
    rw [returned] at setup
    exact absurd setup id
  · rw [returned] at verdict
    exact .inl ⟨clear, verdict⟩
  · rw [returned] at place
    obtain ⟨rfl, -⟩ := place
    exact .inr aborted

/-- The code that a run is to return, by its record. -/
def reportedCode (h : History) : PdExitCode :=
  if h.setupFailed then .setupError
  else if h.observed then .interrupted
  else if ∀ i, (h.logs i).status = some (.exited 0) then .ok
  else .childError

theorem reportedCode_eq {h : History} {rc : PdExitCode}
    (way : (Clear h ∧ Verdict rc pdChildCount h) ∨ Aborted rc h) : rc = reportedCode h := by
  rcases way with ⟨⟨noFailure, unobserved⟩, ⟨rfl, good⟩ | ⟨rfl, j, -, bad⟩⟩ |
    ⟨rfl, failed, -⟩ | ⟨rfl, noFailure, observed⟩
  · have all : ∀ i, (h.logs i).status = some (.exited 0) := fun i => good i i.isLt
    simp [reportedCode, noFailure, unobserved, all]
  · have some_bad : ¬ ∀ i, (h.logs i).status = some (.exited 0) := fun all => bad (all j)
    simp [reportedCode, noFailure, unobserved, some_bad]
  · simp [reportedCode, failed]
  · simp [reportedCode, noFailure, observed]

/-- The ends of the pipes that a run opened are closed exactly once when it returns, the
children that it forked are reaped exactly once, and its code tells how it went. -/
theorem run_accounted {moves : List Move} {s : State} {h : History} {rc : PdExitCode}
    (ran : Schedule.run recorded (start, blank) moves = some (s, h))
    (returned : s.pc = .returned rc) :
    (∀ e, Closed (s.fds e)) ∧
      (∀ i, (s.children i).hasPid = false ∧ (h.logs i).Settled) ∧
      (rc = .setupError ↔ h.setupFailed = true) ∧
      (rc = .interrupted ↔ h.setupFailed = false ∧ h.observed = true) ∧
      (h.setupFailed = false → h.observed = false →
        (rc = .ok ↔ ∀ i, (h.logs i).status = some (.exited 0)) ∧
          (rc = .childError ↔ ¬ ∀ i, (h.logs i).status = some (.exited 0))) := by
  have invariant : DescriptorsAt s ∧ Placed s h := by
    refine Schedule.run_preserves (fun x : State × History => DescriptorsAt x.1 ∧ Placed x.1 x.2)
      ?_ ⟨descriptorsAt_start, placed_start⟩ ran
    rintro ⟨s₀, h₀⟩ move ⟨s₁, h₁⟩ ⟨fds, placed⟩ moved
    obtain ⟨next, stepped, same⟩ := Option.map_eq_some_iff.mp moved
    cases same
    exact ⟨step_descriptors fds stepped, step_placed placed stepped⟩
  obtain ⟨fds, placed⟩ := invariant
  have code := reportedCode_eq (code_of_returned placed returned)
  refine ⟨closed_of_returned fds returned, settled_of_returned placed returned, ?_, ?_, ?_⟩
  · rw [code, reportedCode]
    split_ifs <;> simp_all
  · rw [code, reportedCode]
    split_ifs <;> simp_all
  · intro noFailure unobserved
    by_cases all : ∀ i, (h.logs i).status = some (.exited 0) <;>
      simp [code, reportedCode, noFailure, unobserved, all]

/-- The children of an undisturbed run exit by themselves, each with its number as the code. -/
def numberedExits : List Move :=
  List.replicate 9 .call ++
    (List.finRange pdChildCount).flatMap fun i => [.exit i (.exited i.val), .call, .call]

theorem run_accounted_numbered_exits :
    ∃ s h, Schedule.run recorded (start, blank) numberedExits = some (s, h) ∧
      s.pc = .returned .childError ∧ (∀ e, Closed (s.fds e)) ∧
      (∀ i, (s.children i).hasPid = false ∧ (h.logs i).Settled) ∧
      ∀ i, (h.logs i).status = some (.exited i.val) := by
  have ran : Schedule.run recorded (start, blank) numberedExits =
      some ((Schedule.run recorded (start, blank) numberedExits).getD (start, blank)) := rfl
  have accounted := run_accounted ran rfl
  exact ⟨_, _, ran, rfl, accounted.1, accounted.2.1, by decide⟩

end Returns

end StreamDataPipeline.PipelineDispatcher.Reaping
