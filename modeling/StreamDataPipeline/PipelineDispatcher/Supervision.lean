/- The dispatcher and its children, call by call (pd_pipeline.c, pd_spawn.c, pd_signal.c). -/

import Mathlib.Data.Fintype.Basic
import Mathlib.Logic.Function.Basic
import StreamDataPipeline.Foundations.Schedule

/-!
A move is one call of the dispatcher, with whatever it does up to its next call, or the
exit of a child, or the delivery of SIGINT or SIGTERM to the dispatcher, of which there is
one. `close_pipe_fds` and the check of the flag count as calls. The handlers are installed
without `SA_RESTART` and do nothing but set the flag.

A call of `waitpid` that finds its child running blocks. When the dispatcher goes on, the
call returns the status of the child if it has exited by then, else `EINTR` if a signal was
delivered while it blocked.
-/

set_option autoImplicit false
set_option relaxedAutoImplicit false

namespace StreamDataPipeline.PipelineDispatcher.Supervision

/-- Stable shell-visible exit codes for pipeline_dispatcher. -/
inductive PdExitCode
  | ok | setupError | badArgs | childError | interrupted
  deriving DecidableEq

def PdExitCode.status : PdExitCode → Nat
  | .ok => 0
  | .setupError => 1
  | .badArgs => 2
  | .childError => 3
  | .interrupted => 130

abbrev pdChildCount : Nat := 3

inductive Status
  | exited (code : Nat)
  | signaled (signo : Nat)
  deriving DecidableEq

inductive Process
  | unborn
  | running
  | zombie (status : Status)
  | reaped
  deriving DecidableEq

/-- A child, and whether it was ever sent SIGTERM. -/
structure Child where
  /-- `pid > 0` in `pipeline->children`. -/
  hasPid : Bool
  process : Process
  termSent : Bool
  deriving DecidableEq

abbrev Children := Fin pdChildCount → Child

/-- One end of a pipe in the parent, with the numbers of times it was opened and closed. -/
structure Descriptor where
  held : Bool
  opened : Nat
  closed : Nat
  deriving DecidableEq

/-- The call that the dispatcher makes next, or in which it blocks. -/
inductive Pc
  | pipe1
  | pipe2
  | spawn (i : Nat)
  | closePipes
  | check
  | wait (i : Nat) (rc : PdExitCode)
  | blocked (i : Nat) (rc : PdExitCode) (signalled : Bool)
  | cleanup (rc : PdExitCode)
  | kill (i : Nat) (rc : PdExitCode)
  | killWait (i : Nat) (rc : PdExitCode)
  | returned (rc : PdExitCode)
  deriving DecidableEq

structure State where
  pc : Pc
  interrupted : Bool
  /-- The two ends of `pipe1`, then those of `pipe2`. -/
  fds : Fin 4 → Descriptor
  children : Children

/-- The handlers are installed and `pd_pipeline_init` is done. -/
def start : State where
  pc := .pipe1
  interrupted := false
  fds := fun _ => ⟨false, 0, 0⟩
  children := fun _ => ⟨false, .unborn, false⟩

def State.goto (s : State) (pc : Pc) : State := { s with pc := pc }

def State.setChild (s : State) (i : Fin pdChildCount) (child : Child) : State :=
  { s with children := Function.update s.children i child }

def openPipe (s : State) (ends : Fin 4 → Bool) : State :=
  { s with fds := fun e =>
      if ends e then ⟨true, (s.fds e).opened + 1, (s.fds e).closed⟩ else s.fds e }

def closePipeFds (s : State) : State :=
  { s with fds := fun e =>
      if (s.fds e).held then ⟨false, (s.fds e).opened, (s.fds e).closed + 1⟩ else s.fds e }

inductive WaitResult
  | status (status : Status)
  | eintr
  | echild
  | blocks
  deriving DecidableEq

/-- What `waitpid` does for a child, where `signalled` is whether a signal was delivered
since the call blocked. -/
def waitpid (process : Process) (signalled : Bool) : WaitResult :=
  match process with
  | .zombie status => .status status
  | .running => if signalled then .eintr else .blocks
  | .unborn => .echild
  | .reaped => .echild

def Child.reap (child : Child) : Child := { child with hasPid := false, process := .reaped }

/-- The exit code after a child was waited for with this status. -/
def statusCode (rc : PdExitCode) : Status → PdExitCode
  | .exited 0 => rc
  | .exited _ => .childError
  | .signaled _ => .childError

/-- The body of the loop of `pd_wait_children`; `none` where `waitpid` blocks. -/
def waitChild (s : State) (i : Fin pdChildCount) (rc : PdExitCode) (signalled : Bool) :
    Option State :=
  match waitpid (s.children i).process signalled with
  | .status status =>
      some ((s.setChild i (s.children i).reap).goto (.wait (i + 1) (statusCode rc status)))
  | .eintr =>
      if s.interrupted then some (s.goto (.kill 0 .interrupted))
      else some (s.goto (.wait (i + 1) .childError))
  | .echild => some (s.goto (.wait (i + 1) .childError))
  | .blocks => none

/-- The body of the second loop of `pd_kill_children`, which calls `waitpid` again on
`EINTR`; `none` where it blocks. -/
def killWaitChild (s : State) (i : Fin pdChildCount) (rc : PdExitCode) : Option State :=
  match waitpid (s.children i).process false with
  | .status _ => some ((s.setChild i (s.children i).reap).goto (.killWait (i + 1) rc))
  | .blocks => none
  | _ =>
      some ((s.setChild i { s.children i with hasPid := false }).goto (.killWait (i + 1) rc))

/-- The next call of the dispatcher, where `pipe` and `fork` succeed; `none` where it blocks
or has returned. -/
def callStep (s : State) : Option State :=
  match s.pc with
  | .pipe1 => some ((openPipe s (· < 2)).goto .pipe2)
  | .pipe2 => some ((openPipe s (2 ≤ ·)).goto (.spawn 0))
  | .spawn i =>
      if h : i < pdChildCount then
        some ((s.setChild ⟨i, h⟩ ⟨true, .running, false⟩).goto (.spawn (i + 1)))
      else some (s.goto .closePipes)
  | .closePipes => some ((closePipeFds s).goto .check)
  | .check => some (s.goto (if s.interrupted then .cleanup .interrupted else .wait 0 .ok))
  | .wait i rc =>
      if h : i < pdChildCount then
        if (s.children ⟨i, h⟩).hasPid then
          some ((waitChild s ⟨i, h⟩ rc false).getD (s.goto (.blocked i rc false)))
        else some (s.goto (.wait (i + 1) rc))
      else some (s.goto (.returned rc))
  | .blocked i rc signalled =>
      if h : i < pdChildCount then waitChild s ⟨i, h⟩ rc signalled else none
  | .cleanup rc => some ((closePipeFds s).goto (.kill 0 rc))
  | .kill i rc =>
      if h : i < pdChildCount then
        let child := s.children ⟨i, h⟩
        some ((if child.hasPid then s.setChild ⟨i, h⟩ { child with termSent := true } else s).goto
          (.kill (i + 1) rc))
      else some (s.goto (.killWait 0 rc))
  | .killWait i rc =>
      if h : i < pdChildCount then
        if (s.children ⟨i, h⟩).hasPid then killWaitChild s ⟨i, h⟩ rc
        else some (s.goto (.killWait (i + 1) rc))
      else some (s.goto (.returned rc))
  | .returned _ => none

/-- A `pipe` or a `fork` that fails. -/
def failStep (s : State) : Option State :=
  match s.pc with
  | .pipe1 => some (s.goto (.returned .setupError))
  | .pipe2 => some ((closePipeFds s).goto (.returned .setupError))
  | .spawn i => if i < pdChildCount then some (s.goto (.cleanup .setupError)) else none
  | _ => none

/-- `handle_signal`, while a call may be blocking. -/
def signalStep (s : State) : Option State :=
  if s.interrupted then none
  else
    let flagged := { s with interrupted := true }
    match s.pc with
    | .blocked i rc _ => some (flagged.goto (.blocked i rc true))
    | _ => some flagged

def exitStep (s : State) (i : Fin pdChildCount) (status : Status) : Option State :=
  if (s.children i).process = .running then
    some (s.setChild i { s.children i with process := .zombie status })
  else none

inductive Move
  | call
  | fail
  | signal
  | exit (i : Fin pdChildCount) (status : Status)
  deriving DecidableEq

def step (s : State) : Move → Option State
  | .call => callStep s
  | .fail => failStep s
  | .signal => signalStep s
  | .exit i status => exitStep s i status

@[simp] theorem State.goto_pc (s : State) (pc : Pc) : (s.goto pc).pc = pc := rfl
@[simp] theorem State.goto_interrupted (s : State) (pc : Pc) :
    (s.goto pc).interrupted = s.interrupted := rfl
@[simp] theorem State.goto_children (s : State) (pc : Pc) :
    (s.goto pc).children = s.children := rfl
@[simp] theorem State.goto_fds (s : State) (pc : Pc) : (s.goto pc).fds = s.fds := rfl
@[simp] theorem State.setChild_pc (s : State) (i : Fin pdChildCount) (child : Child) :
    (s.setChild i child).pc = s.pc := rfl
@[simp] theorem State.setChild_interrupted (s : State) (i : Fin pdChildCount) (child : Child) :
    (s.setChild i child).interrupted = s.interrupted := rfl
@[simp] theorem State.setChild_children (s : State) (i : Fin pdChildCount) (child : Child) :
    (s.setChild i child).children = Function.update s.children i child := rfl
@[simp] theorem openPipe_pc (s : State) (ends : Fin 4 → Bool) : (openPipe s ends).pc = s.pc := rfl
@[simp] theorem openPipe_children (s : State) (ends : Fin 4 → Bool) :
    (openPipe s ends).children = s.children := rfl
@[simp] theorem openPipe_interrupted (s : State) (ends : Fin 4 → Bool) :
    (openPipe s ends).interrupted = s.interrupted := rfl
@[simp] theorem closePipeFds_pc (s : State) : (closePipeFds s).pc = s.pc := rfl
@[simp] theorem closePipeFds_children (s : State) :
    (closePipeFds s).children = s.children := rfl
@[simp] theorem closePipeFds_interrupted (s : State) :
    (closePipeFds s).interrupted = s.interrupted := rfl

private theorem waitChild_interrupted {s s' : State} {i : Fin pdChildCount} {rc : PdExitCode}
    {signalled : Bool} (waited : waitChild s i rc signalled = some s') :
    s'.interrupted = s.interrupted := by
  unfold waitChild at waited
  split at waited
  · cases waited
    rfl
  · split_ifs at waited <;> cases waited <;> rfl
  · cases waited
    rfl
  · cases waited

private theorem killWaitChild_interrupted {s s' : State} {i : Fin pdChildCount}
    {rc : PdExitCode} (waited : killWaitChild s i rc = some s') :
    s'.interrupted = s.interrupted := by
  unfold killWaitChild at waited
  split at waited <;> cases waited <;> rfl

/-- What a call of the dispatcher can do, by the call. -/
inductive Called (s : State) : State → Prop
  | pipe1 (pc : s.pc = .pipe1) : Called s ((openPipe s (· < 2)).goto .pipe2)
  | pipe2 (pc : s.pc = .pipe2) : Called s ((openPipe s (2 ≤ ·)).goto (.spawn 0))
  | spawn {i : Nat} (pc : s.pc = .spawn i) (h : i < pdChildCount) :
      Called s ((s.setChild ⟨i, h⟩ ⟨true, .running, false⟩).goto (.spawn (i + 1)))
  | spawned {i : Nat} (pc : s.pc = .spawn i) (h : ¬ i < pdChildCount) :
      Called s (s.goto .closePipes)
  | closePipes (pc : s.pc = .closePipes) : Called s ((closePipeFds s).goto .check)
  | check (pc : s.pc = .check) :
      Called s (s.goto (if s.interrupted then .cleanup .interrupted else .wait 0 .ok))
  | block {i : Nat} {rc : PdExitCode} (pc : s.pc = .wait i rc) (h : i < pdChildCount)
      (blocks : waitChild s ⟨i, h⟩ rc false = none) : Called s (s.goto (.blocked i rc false))
  | wait {i : Nat} {rc : PdExitCode} {s' : State} {signalled : Bool}
      (pc : s.pc = .wait i rc ∧ signalled = false ∨ s.pc = .blocked i rc signalled)
      (h : i < pdChildCount) (waited : waitChild s ⟨i, h⟩ rc signalled = some s') : Called s s'
  | waitSkips {i : Nat} {rc : PdExitCode} (pc : s.pc = .wait i rc) (h : i < pdChildCount)
      (noPid : (s.children ⟨i, h⟩).hasPid ≠ true) : Called s (s.goto (.wait (i + 1) rc))
  | waitEnds {i : Nat} {rc : PdExitCode} (pc : s.pc = .wait i rc) (h : ¬ i < pdChildCount) :
      Called s (s.goto (.returned rc))
  | cleanup {rc : PdExitCode} (pc : s.pc = .cleanup rc) :
      Called s ((closePipeFds s).goto (.kill 0 rc))
  | kill {i : Nat} {rc : PdExitCode} (pc : s.pc = .kill i rc) (h : i < pdChildCount)
      (hasPid : (s.children ⟨i, h⟩).hasPid = true) :
      Called s ((s.setChild ⟨i, h⟩ { s.children ⟨i, h⟩ with termSent := true }).goto
        (.kill (i + 1) rc))
  | killSkips {i : Nat} {rc : PdExitCode} (pc : s.pc = .kill i rc) (h : i < pdChildCount)
      (noPid : (s.children ⟨i, h⟩).hasPid ≠ true) : Called s (s.goto (.kill (i + 1) rc))
  | killEnds {i : Nat} {rc : PdExitCode} (pc : s.pc = .kill i rc) (h : ¬ i < pdChildCount) :
      Called s (s.goto (.killWait 0 rc))
  | killWait {i : Nat} {rc : PdExitCode} {s' : State} (pc : s.pc = .killWait i rc)
      (h : i < pdChildCount) (waited : killWaitChild s ⟨i, h⟩ rc = some s') : Called s s'
  | killWaitSkips {i : Nat} {rc : PdExitCode} (pc : s.pc = .killWait i rc) (h : i < pdChildCount)
      (noPid : (s.children ⟨i, h⟩).hasPid ≠ true) : Called s (s.goto (.killWait (i + 1) rc))
  | killWaitEnds {i : Nat} {rc : PdExitCode} (pc : s.pc = .killWait i rc)
      (h : ¬ i < pdChildCount) : Called s (s.goto (.returned rc))

theorem callStep_cases {s s' : State} (called : callStep s = some s') : Called s s' := by
  unfold callStep at called
  split at called
  · rename_i pc
    cases called
    exact .pipe1 pc
  · rename_i pc
    cases called
    exact .pipe2 pc
  · rename_i i pc
    split_ifs at called with h
    · cases called
      exact .spawn pc h
    · cases called
      exact .spawned pc h
  · rename_i pc
    cases called
    exact .closePipes pc
  · rename_i pc
    cases called
    exact .check pc
  · rename_i i rc pc
    split_ifs at called with h hasPid
    · cases waited : waitChild s ⟨i, h⟩ rc false with
      | none =>
          rw [waited] at called
          cases called
          exact .block pc h waited
      | some next =>
          rw [waited] at called
          cases called
          exact .wait (.inl ⟨pc, rfl⟩) h waited
    · cases called
      exact .waitSkips pc h hasPid
    · cases called
      exact .waitEnds pc h
  · rename_i i rc signalled pc
    split_ifs at called with h
    exact .wait (.inr pc) h called
  · rename_i rc pc
    cases called
    exact .cleanup pc
  · rename_i i rc pc
    dsimp only at called
    split_ifs at called with h hasPid
    · cases called
      exact .kill pc h hasPid
    · cases called
      exact .killSkips pc h hasPid
    · cases called
      exact .killEnds pc h
  · rename_i i rc pc
    split_ifs at called with h hasPid
    · exact .killWait pc h called
    · cases called
      exact .killWaitSkips pc h hasPid
    · cases called
      exact .killWaitEnds pc h
  · cases called

theorem callStep_interrupted {s s' : State} (called : callStep s = some s') :
    s'.interrupted = s.interrupted := by
  cases callStep_cases called with
  | wait _ _ waited => exact waitChild_interrupted waited
  | killWait _ _ waited => exact killWaitChild_interrupted waited
  | _ => rfl

theorem exitStep_cases {s s' : State} {i : Fin pdChildCount} {status : Status}
    (exited : exitStep s i status = some s') :
    (s.children i).process = .running ∧
      s' = s.setChild i { s.children i with process := .zombie status } := by
  unfold exitStep at exited
  split_ifs at exited with running
  exact ⟨running, (Option.some.inj exited).symm⟩

theorem signalStep_cases {s s' : State} (delivered : signalStep s = some s') :
    s'.fds = s.fds ∧ s'.children = s.children ∧ s'.interrupted = true ∧
      ((∃ i rc signalled, s.pc = .blocked i rc signalled ∧ s'.pc = .blocked i rc true) ∨
        (∀ i rc signalled, s.pc ≠ .blocked i rc signalled) ∧ s'.pc = s.pc) := by
  unfold signalStep at delivered
  split_ifs at delivered
  dsimp only at delivered
  split at delivered
  · rename_i i rc signalled pc
    cases delivered
    exact ⟨rfl, rfl, rfl, .inl ⟨i, rc, signalled, pc, rfl⟩⟩
  · rename_i other
    cases delivered
    exact ⟨rfl, rfl, rfl, .inr ⟨other, rfl⟩⟩

end StreamDataPipeline.PipelineDispatcher.Supervision
