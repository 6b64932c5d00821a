/- The children that the dispatcher has to account for, at each of its calls. -/

import StreamDataPipeline.PipelineDispatcher.Progress

set_option autoImplicit false
set_option relaxedAutoImplicit false

namespace StreamDataPipeline.PipelineDispatcher.Accounting

open Supervision Progress

def isAlive : Process → Bool
  | .running | .zombie _ => true
  | .unborn | .reaped => false

/-- Children below `lo` have been waited for, those from `hi` on are not born yet, and those
between are the ones that the dispatcher has to account for. -/
structure Layout (children : Children) (lo hi : Nat) : Prop where
  gone : ∀ j : Fin pdChildCount, j.val < lo →
    (children j).hasPid = false ∧ (children j).process = .reaped
  alive : ∀ j : Fin pdChildCount, lo ≤ j.val → j.val < hi →
    (children j).hasPid = true ∧ isAlive (children j).process = true
  unborn : ∀ j : Fin pdChildCount, lo ≤ j.val → hi ≤ j.val →
    (children j).hasPid = false ∧ (children j).process = .unborn

/-- The dispatcher has not checked the flag yet. -/
def InSetup (s : State) : Prop :=
  match s.pc with
  | .pipe1 | .pipe2 => Layout s.children 0 0
  | .spawn i => i ≤ pdChildCount ∧ Layout s.children 0 i
  | .closePipes | .check => Layout s.children 0 pdChildCount
  | _ => False

/-- The dispatcher has found the flag clear, and waits. -/
def InWait (s : State) : Prop :=
  match s.pc with
  | .wait i rc => rc ≠ .interrupted ∧ Layout s.children i pdChildCount
  | .blocked i rc _ => i < pdChildCount ∧ rc ≠ .interrupted ∧ Layout s.children i pdChildCount
  | .returned rc => rc ≠ .interrupted ∧ Layout s.children pdChildCount pdChildCount
  | _ => False

/-- The dispatcher terminates the children from `lo` to below `hi`, and is to return `rc`. -/
def InKill (lo hi : Nat) (rc : PdExitCode) (s : State) : Prop :=
  (lo ≤ hi ∧ hi ≤ pdChildCount) ∧
  match s.pc with
  | .cleanup code => code = rc ∧ Layout s.children lo hi
  | .kill i code => code = rc ∧ Layout s.children lo hi ∧
      ∀ j : Fin pdChildCount, lo ≤ j.val → j.val < hi → j.val < i →
        (s.children j).termSent = true
  | .killWait i code => code = rc ∧ Layout s.children (max lo (min i hi)) hi ∧
      ∀ j : Fin pdChildCount, lo ≤ j.val → j.val < hi → (s.children j).termSent = true
  | .returned code => code = rc ∧ Layout s.children hi hi ∧
      ∀ j : Fin pdChildCount, lo ≤ j.val → j.val < hi → (s.children j).termSent = true
  | _ => False

private theorem Layout.update_same {children : Children} {lo hi : Nat}
    (layout : Layout children lo hi) {i : Fin pdChildCount} {child : Child}
    (pid : child.hasPid = (children i).hasPid)
    (process : child.process = (children i).process ∨
      isAlive child.process = true ∧ isAlive (children i).process = true) :
    Layout (Function.update children i child) lo hi := by
  constructor
  · intro j below
    obtain ⟨noPid, reaped⟩ := layout.gone j below
    by_cases same : j = i
    · subst same
      rw [Function.update_self, pid]
      rcases process with equal | ⟨-, alive⟩
      · exact ⟨noPid, equal.trans reaped⟩
      · simp [reaped, isAlive] at alive
    · rw [Function.update_of_ne same]
      exact ⟨noPid, reaped⟩
  · intro j above below
    obtain ⟨hasPid, alive⟩ := layout.alive j above below
    by_cases same : j = i
    · subst same
      rw [Function.update_self, pid]
      rcases process with equal | ⟨stays, -⟩
      · exact ⟨hasPid, equal ▸ alive⟩
      · exact ⟨hasPid, stays⟩
    · rw [Function.update_of_ne same]
      exact ⟨hasPid, alive⟩
  · intro j above beyond
    obtain ⟨noPid, unborn⟩ := layout.unborn j above beyond
    by_cases same : j = i
    · subst same
      rw [Function.update_self, pid]
      rcases process with equal | ⟨-, alive⟩
      · exact ⟨noPid, equal.trans unborn⟩
      · simp [unborn, isAlive] at alive
    · rw [Function.update_of_ne same]
      exact ⟨noPid, unborn⟩

theorem Layout.born {children : Children} {i : Nat} (h : i < pdChildCount)
    (layout : Layout children 0 i) {child : Child} (pid : child.hasPid = true)
    (alive : isAlive child.process = true) :
    Layout (Function.update children ⟨i, h⟩ child) 0 (i + 1) := by
  constructor
  · intro j below
    exact absurd below (Nat.not_lt_zero _)
  · intro j above below
    by_cases same : j = ⟨i, h⟩
    · subst same
      rw [Function.update_self]
      exact ⟨pid, alive⟩
    · have other : j.val ≠ i := fun equal => same (Fin.ext equal)
      rw [Function.update_of_ne same]
      exact layout.alive j above (by omega)
  · intro j above beyond
    have same : j ≠ ⟨i, h⟩ := by
      rintro rfl
      exact Nat.not_succ_le_self i beyond
    rw [Function.update_of_ne same]
    exact layout.unborn j above (by omega)

theorem Layout.reap {children : Children} {i hi : Nat} (h : i < pdChildCount)
    (layout : Layout children i hi) :
    Layout (Function.update children ⟨i, h⟩ (children ⟨i, h⟩).reap) (i + 1) hi := by
  constructor
  · intro j below
    by_cases same : j = ⟨i, h⟩
    · subst same
      rw [Function.update_self]
      exact ⟨rfl, rfl⟩
    · have other : j.val ≠ i := fun equal => same (Fin.ext equal)
      rw [Function.update_of_ne same]
      exact layout.gone j (by omega)
  · intro j above below
    have same : j ≠ ⟨i, h⟩ := by
      rintro rfl
      exact Nat.not_succ_le_self i above
    rw [Function.update_of_ne same]
    exact layout.alive j (by omega) below
  · intro j above beyond
    have same : j ≠ ⟨i, h⟩ := by
      rintro rfl
      exact Nat.not_succ_le_self i above
    rw [Function.update_of_ne same]
    exact layout.unborn j (by omega) beyond

theorem Layout.all {children : Children} {i : Nat} (h : pdChildCount ≤ i)
    (layout : Layout children i pdChildCount) : Layout children pdChildCount pdChildCount := by
  constructor
  · intro j below
    exact layout.gone j (Nat.lt_of_lt_of_le below h)
  · intro j above below
    exact absurd below (Nat.not_lt.mpr above)
  · intro j above
    exact absurd j.isLt (Nat.not_lt.mpr above)

theorem Layout.hasPid_iff {children : Children} {lo hi : Nat} (layout : Layout children lo hi)
    (j : Fin pdChildCount) : (children j).hasPid = true ↔ lo ≤ j.val ∧ j.val < hi := by
  constructor
  · intro hasPid
    by_contra outside
    have noPid : (children j).hasPid = false := by
      rcases Nat.lt_or_ge j.val lo with below | above
      · exact (layout.gone j below).1
      · exact (layout.unborn j above (by omega)).1
    rw [noPid] at hasPid
    cases hasPid
  · rintro ⟨above, below⟩
    exact (layout.alive j above below).1

theorem isAlive_cases {process : Process} (alive : isAlive process = true) :
    process = .running ∨ ∃ status, process = .zombie status := by
  cases process with
  | running => exact .inl rfl
  | zombie status => exact .inr ⟨status, rfl⟩
  | unborn => cases alive
  | reaped => cases alive

theorem statusCode_ne_interrupted {rc : PdExitCode} (h : rc ≠ .interrupted)
    (status : Status) : statusCode rc status ≠ .interrupted := by
  unfold statusCode
  split
  · exact h
  · simp
  · simp

theorem callStep_setup {s s' : State} (setup : InSetup s) (called : callStep s = some s') :
    s'.interrupted = s.interrupted ∧
      (InSetup s' ∨ if s.interrupted then InKill 0 pdChildCount .interrupted s' else
        InWait s' ∧ ∀ i rc, s'.pc ≠ .blocked i rc true) := by
  unfold InSetup at setup
  unfold callStep at called
  split at setup
  · rename_i pc
    simp only [pc] at called
    cases called
    exact ⟨rfl, .inl setup⟩
  · rename_i pc
    simp only [pc] at called
    cases called
    exact ⟨rfl, .inl ⟨Nat.zero_le _, setup⟩⟩
  · rename_i i pc
    obtain ⟨bound, layout⟩ := setup
    simp only [pc] at called
    split_ifs at called with h
    · cases called
      exact ⟨rfl, .inl ⟨h, layout.born h rfl rfl⟩⟩
    · cases called
      obtain rfl : i = pdChildCount := Nat.le_antisymm bound (Nat.not_lt.mp h)
      exact ⟨rfl, .inl layout⟩
  · rename_i pc
    simp only [pc] at called
    cases called
    exact ⟨rfl, .inl setup⟩
  · rename_i pc
    simp only [pc] at called
    cases called
    refine ⟨rfl, .inr ?_⟩
    cases flag : s.interrupted with
    | true => exact ⟨⟨Nat.zero_le _, Nat.le_refl _⟩, rfl, setup⟩
    | false =>
        refine ⟨⟨by simp, setup⟩, ?_⟩
        intro i rc blocked
        simp at blocked
  · exact absurd setup id

/-- What a call of `waitpid` for an accounted child leads to. -/
theorem waitChild_cases {s : State} {i : Nat} (h : i < pdChildCount) {rc : PdExitCode}
    (signalled : Bool) (normal : rc ≠ .interrupted)
    (layout : Layout s.children i pdChildCount) :
    ((s.children ⟨i, h⟩).process ≠ .running ∧ ∃ s' rc',
        waitChild s ⟨i, h⟩ rc signalled = some s' ∧ s'.interrupted = s.interrupted ∧
        s'.pc = .wait (i + 1) rc' ∧ rc' ≠ .interrupted ∧
        Layout s'.children (i + 1) pdChildCount) ∨
      ((s.children ⟨i, h⟩).process = .running ∧
        waitChild s ⟨i, h⟩ rc signalled =
          if signalled then
            if s.interrupted then some (s.goto (.kill 0 .interrupted))
            else some (s.goto (.wait (i + 1) .childError))
          else none) := by
  obtain ⟨-, alive⟩ := layout.alive ⟨i, h⟩ (Nat.le_refl i) h
  rcases isAlive_cases alive with running | ⟨status, zombie⟩
  · refine .inr ⟨running, ?_⟩
    unfold waitChild
    rw [running]
    cases signalled <;> rfl
  · have answered : waitChild s ⟨i, h⟩ rc signalled =
        some ((s.setChild ⟨i, h⟩ (s.children ⟨i, h⟩).reap).goto
          (.wait (i + 1) (statusCode rc status))) := by
      unfold waitChild
      rw [zombie]
      rfl
    exact .inl ⟨by simp [zombie], _, _, answered, rfl, rfl,
      statusCode_ne_interrupted normal status, layout.reap h⟩

private theorem inWait_of_wait {s : State} {i : Nat} {rc : PdExitCode} (pc : s.pc = .wait i rc)
    (normal : rc ≠ .interrupted) (layout : Layout s.children i pdChildCount) :
    InWait s ∧ ∀ j rc', s.pc ≠ .blocked j rc' true := by
  constructor
  · unfold InWait
    rw [pc]
    exact ⟨normal, layout⟩
  · intro j rc' blocked
    rw [pc] at blocked
    cases blocked

theorem callStep_wait {s s' : State} (waits : InWait s)
    (deaf : ∀ i rc, s.pc = .blocked i.val rc true → (s.children i).process ≠ .running)
    (called : callStep s = some s') :
    s'.interrupted = s.interrupted ∧ InWait s' ∧ ∀ i rc, s'.pc ≠ .blocked i rc true := by
  unfold InWait at waits
  unfold callStep at called
  split at waits
  · rename_i i rc pc
    obtain ⟨normal, layout⟩ := waits
    simp only [pc] at called
    split_ifs at called with h hasPid
    · rcases waitChild_cases h false normal layout with
        ⟨-, next, rc', answer, flag, pc', normal', layout'⟩ | ⟨running, blocks⟩
      · rw [answer, Option.getD_some] at called
        cases called
        exact ⟨flag, inWait_of_wait pc' normal' layout'⟩
      · rw [blocks] at called
        cases called
        refine ⟨rfl, ⟨h, normal, layout⟩, ?_⟩
        intro j rc'' blocked
        simp at blocked
    · have own := (layout.alive ⟨i, h⟩ (Nat.le_refl i) h).1
      exact absurd own hasPid
    · cases called
      refine ⟨rfl, ⟨normal, layout.all (Nat.not_lt.mp h)⟩, ?_⟩
      intro j rc' blocked
      simp at blocked
  · rename_i i rc signalled pc
    obtain ⟨h, normal, layout⟩ := waits
    simp only [pc, dif_pos h] at called
    rcases waitChild_cases h signalled normal layout with
      ⟨-, next, rc', answer, flag, pc', normal', layout'⟩ | ⟨running, blocks⟩
    · rw [answer] at called
      cases called
      exact ⟨flag, inWait_of_wait pc' normal' layout'⟩
    · rw [blocks] at called
      cases signalled with
      | false => cases called
      | true => exact absurd running (deaf ⟨i, h⟩ rc pc)
  · rename_i pc
    simp only [pc] at called
    cases called
  · exact absurd waits id

private theorem killWaitChild_reaps {s s' : State} {i hi : Nat} (h : i < pdChildCount)
    {rc : PdExitCode} (layout : Layout s.children i hi) (below : i < hi)
    (waited : killWaitChild s ⟨i, h⟩ rc = some s') :
    s' = (s.setChild ⟨i, h⟩ (s.children ⟨i, h⟩).reap).goto (.killWait (i + 1) rc) := by
  obtain ⟨-, alive⟩ := layout.alive ⟨i, h⟩ (Nat.le_refl i) below
  unfold killWaitChild at waited
  rcases isAlive_cases alive with running | ⟨status, zombie⟩
  · rw [running] at waited
    cases waited
  · rw [zombie] at waited
    exact (Option.some.inj waited).symm

private theorem termSent_setChild {s : State} {i j : Fin pdChildCount} {child : Child}
    (kept : (s.children i).termSent = true → child.termSent = true)
    (sent : (s.children j).termSent = true) :
    ((s.setChild i child).children j).termSent = true := by
  by_cases same : j = i
  · subst same
    simpa using kept sent
  · rw [State.setChild_children, Function.update_of_ne same]
    exact sent

theorem callStep_kill {s s' : State} {lo hi : Nat} {rc : PdExitCode} (kills : InKill lo hi rc s)
    (called : callStep s = some s') :
    s'.interrupted = s.interrupted ∧ InKill lo hi rc s' := by
  obtain ⟨bounds, place⟩ := kills
  unfold callStep at called
  split at place
  · rename_i pc
    obtain ⟨code, layout⟩ := place
    simp only [pc] at called
    cases called
    refine ⟨rfl, bounds, code, layout, ?_⟩
    intro j _ _ below
    exact absurd below (Nat.not_lt_zero _)
  · rename_i i _ pc
    obtain ⟨code, layout, sent⟩ := place
    simp only [pc] at called
    split_ifs at called with h hasPid
    · cases called
      refine ⟨rfl, bounds, code, layout.update_same rfl (.inl rfl), ?_⟩
      intro j above below passed
      by_cases same : j = ⟨i, h⟩
      · subst same
        simp
      · have other : j.val ≠ i := fun equal => same (Fin.ext equal)
        exact termSent_setChild (fun _ => rfl) (sent j above below (by omega))
    · cases called
      refine ⟨rfl, bounds, code, layout, ?_⟩
      intro j above below passed
      have outside := (layout.hasPid_iff ⟨i, h⟩).not.mp hasPid
      exact sent j above below (by dsimp only at outside; omega)
    · cases called
      refine ⟨rfl, bounds, code, by simpa using layout, ?_⟩
      intro j above below
      exact sent j above below (Nat.lt_of_lt_of_le j.isLt (Nat.not_lt.mp h))
  · rename_i i _ pc
    obtain ⟨code, layout, sent⟩ := place
    simp only [pc] at called
    split_ifs at called with h hasPid
    · obtain ⟨from_lo, below⟩ : max lo (min i hi) ≤ i ∧ i < hi :=
        (layout.hasPid_iff ⟨i, h⟩).mp hasPid
      have here : max lo (min i hi) = i := by omega
      rw [here] at layout
      obtain rfl := killWaitChild_reaps h layout below called
      refine ⟨rfl, bounds, code, ?_, ?_⟩
      · have next : max lo (min (i + 1) hi) = i + 1 := by omega
        rw [next]
        exact layout.reap h
      · intro j above inside
        exact termSent_setChild id (sent j above inside)
    · have outside : ¬ (max lo (min i hi) ≤ i ∧ i < hi) :=
        (layout.hasPid_iff ⟨i, h⟩).not.mp hasPid
      cases called
      have same : max lo (min (i + 1) hi) = max lo (min i hi) := by omega
      refine ⟨rfl, bounds, code, ?_, sent⟩
      rw [same]
      exact layout
    · cases called
      have all : max lo (min i hi) = hi := by
        have high := Nat.not_lt.mp h
        omega
      rw [all] at layout
      exact ⟨rfl, bounds, code, layout, sent⟩
  · rename_i pc
    simp only [pc] at called
    cases called
  · exact absurd place id

theorem layout_exit {s : State} {i : Fin pdChildCount} (status : Status)
    (running : (s.children i).process = .running) {lo hi : Nat}
    (layout : Layout s.children lo hi) :
    Layout (s.setChild i { s.children i with process := .zombie status }).children lo hi :=
  layout.update_same rfl (.inr ⟨rfl, by rw [running]; rfl⟩)

private theorem termSent_exit {s : State} {i : Fin pdChildCount} (status : Status)
    (j : Fin pdChildCount) :
    ((s.setChild i { s.children i with process := .zombie status }).children j).termSent =
      (s.children j).termSent := by
  by_cases same : j = i
  · subst same
    simp
  · simp [Function.update_of_ne same]

theorem exitStep_setup {s s' : State} {i : Fin pdChildCount} {status : Status}
    (setup : InSetup s) (exited : exitStep s i status = some s') : InSetup s' := by
  obtain ⟨running, rfl⟩ := exitStep_cases exited
  have kept : ∀ {lo hi}, Layout s.children lo hi → Layout _ lo hi :=
    fun layout => layout_exit status running layout
  unfold InSetup at setup ⊢
  simp only [State.setChild_pc]
  split at setup
  · exact kept setup
  · exact kept setup
  · exact ⟨setup.1, kept setup.2⟩
  · exact kept setup
  · exact kept setup
  · exact absurd setup id

theorem exitStep_wait {s s' : State} {i : Fin pdChildCount} {status : Status}
    (waits : InWait s) (exited : exitStep s i status = some s') : InWait s' := by
  obtain ⟨running, rfl⟩ := exitStep_cases exited
  have kept : ∀ {lo hi}, Layout s.children lo hi → Layout _ lo hi :=
    fun layout => layout_exit status running layout
  unfold InWait at waits ⊢
  simp only [State.setChild_pc]
  split at waits
  · exact ⟨waits.1, kept waits.2⟩
  · exact ⟨waits.1, waits.2.1, kept waits.2.2⟩
  · exact ⟨waits.1, kept waits.2⟩
  · exact absurd waits id

theorem exitStep_kill {s s' : State} {lo hi : Nat} {rc : PdExitCode} {i : Fin pdChildCount}
    {status : Status} (kills : InKill lo hi rc s) (exited : exitStep s i status = some s') :
    InKill lo hi rc s' := by
  obtain ⟨running, rfl⟩ := exitStep_cases exited
  have kept : ∀ {lo hi}, Layout s.children lo hi → Layout _ lo hi :=
    fun layout => layout_exit status running layout
  obtain ⟨bounds, place⟩ := kills
  refine ⟨bounds, ?_⟩
  simp only [State.setChild_pc, termSent_exit]
  split at place
  · exact ⟨place.1, kept place.2⟩
  · exact ⟨place.1, kept place.2.1, place.2.2⟩
  · exact ⟨place.1, kept place.2.1, place.2.2⟩
  · exact ⟨place.1, kept place.2.1, place.2.2⟩
  · exact absurd place id

theorem callStep_setup_ne_none {s : State} (setup : InSetup s) : callStep s ≠ none := by
  unfold InSetup at setup
  unfold callStep
  split at setup
  · rename_i pc
    simp [pc]
  · rename_i pc
    simp [pc]
  · rename_i i pc
    by_cases h : i < pdChildCount <;> simp [pc, h]
  · rename_i pc
    simp [pc]
  · rename_i pc
    simp [pc]
  · exact absurd setup id

/-- The termination goes on until the dispatcher returns; it blocks only on running children. -/
theorem kill_ended {s : State} {lo hi : Nat} {rc : PdExitCode} (kills : InKill lo hi rc s)
    (ended : Ended s) :
    s.pc = .returned rc ∧ Layout s.children hi hi ∧
      ∀ j : Fin pdChildCount, lo ≤ j.val → j.val < hi → (s.children j).termSent = true := by
  obtain ⟨stopped, quiet⟩ := ended
  obtain ⟨-, place⟩ := kills
  unfold callStep at stopped
  split at place
  · rename_i pc
    simp [pc] at stopped
  · rename_i i _ pc
    by_cases h : i < pdChildCount <;> simp [pc, h] at stopped
  · rename_i i _ pc
    by_cases h : i < pdChildCount
    · simp only [pc, dif_pos h] at stopped
      split_ifs at stopped with hasPid
      unfold killWaitChild at stopped
      have running : (s.children ⟨i, h⟩).process ≠ .running := by
        intro running
        have exits := quiet ⟨i, h⟩ (.exited 0)
        simp [exitStep, running] at exits
      cases process : (s.children ⟨i, h⟩).process with
      | running => exact absurd process running
      | zombie status => simp [process, waitpid] at stopped
      | unborn => simp [process, waitpid] at stopped
      | reaped => simp [process, waitpid] at stopped
    · simp [pc, h] at stopped
  · rename_i code pc
    obtain ⟨rfl, layout, sent⟩ := place
    exact ⟨pc, layout, sent⟩
  · exact absurd place id

end StreamDataPipeline.PipelineDispatcher.Accounting
