/- Programs that are joined by pipes, one behind the other. -/

import Mathlib.Data.List.Basic
import Mathlib.Tactic.Common
import StreamDataPipeline.Foundations.Lines
import StreamDataPipeline.Foundations.Schedule

/-!
A chain lists its stages from the last one to the first. A stage takes what its pipe holds
in chunks of any size, keeps what it writes in a buffer, and passes it on in chunks of any
size while the next pipe has room. `remaining` is what a chain will still put out. No step
changes it, so the order of the steps does not matter, and every step lowers a measure.
-/

set_option autoImplicit false
set_option relaxedAutoImplicit false

namespace StreamDataPipeline.Foundations.PipeChain

universe u v

/-- What a program does with the next item, and what it writes when its input ends. The
state `none` is a program that stops reading. -/
structure Program (α : Type u) where
  State : Type v
  step : State → α → Option State × List α
  finish : State → List α

section Programs

variable {α : Type u} (p : Program.{u, v} α)

/-- All that is written when the items come and then the input ends. -/
def Program.resume : p.State → List α → List α
  | s, [] => p.finish s
  | s, x :: xs => match p.step s x with
    | (some s', out) => out ++ Program.resume s' xs
    | (none, out) => out

/-- What is written when the items come, and the state behind them. -/
def Program.feed : p.State → List α → Option p.State × List α
  | s, [] => (some s, [])
  | s, x :: xs => match p.step s x with
    | (some s', out) => ((Program.feed s' xs).1, out ++ (Program.feed s' xs).2)
    | (none, out) => (none, out)

theorem Program.resume_cons (s : p.State) (x : α) (xs : List α) :
    p.resume s (x :: xs) =
      (p.step s x).2 ++ (p.step s x).1.elim [] fun s' => p.resume s' xs := by
  rw [resume]
  cases p.step s x with
  | mk next out => cases next <;> simp

theorem Program.resume_append (s : p.State) (xs ys : List α) :
    p.resume s (xs ++ ys) =
      (p.feed s xs).2 ++ (p.feed s xs).1.elim [] fun s' => p.resume s' ys := by
  induction xs generalizing s with
  | nil => rfl
  | cons x xs ih =>
      rw [List.cons_append, resume, feed]
      cases p.step s x with
      | mk next out =>
          cases next with
          | none => simp
          | some s' =>
              simp only [ih, List.append_assoc]

end Programs

inductive Phase (σ : Type v)
  | reading (s : σ)
  | closing
  | exited

def Phase.isExited {σ : Type v} : Phase σ → Bool
  | .exited => true
  | _ => false

/-- Steps to the end that read or write nothing. -/
def Phase.left {σ : Type v} : Phase σ → Nat
  | .reading _ => 2
  | .closing => 1
  | .exited => 0

/-- A process of the chain with the pipe that it reads from: how much the pipe holds at most,
and how much the process may have in its own buffer when it reads on. -/
structure Stage (α : Type u) where
  program : Program.{u, v} α
  phase : Phase program.State
  capacity : Nat
  buffer : Nat
  input : List α
  pending : List α

inductive Action
  | read (n : Nat)
  | endOfInput
  | write (n : Nat)
  | exit
  | killed
  deriving DecidableEq

/-- Where a stage writes to. A pipe that nobody reads from kills its writer. -/
inductive Outlet
  | unlimited
  | room (n : Nat)
  | gone
  deriving DecidableEq

def Outlet.Admits : Outlet → Nat → Prop
  | .unlimited, _ => True
  | .room n, m => m ≤ n
  | .gone, _ => False

instance : (outlet : Outlet) → DecidablePred outlet.Admits
  | .unlimited, _ => isTrue trivial
  | .room _, _ => Nat.decLe _ _
  | .gone, _ => isFalse id

variable {α : Type u}

namespace Stage

/-- The pipe of a stage, as the stage in front of it finds it. -/
def outlet (st : Stage.{u, v} α) : Outlet :=
  if st.phase.isExited then .gone else .room (st.capacity - st.input.length)

/-- A process that still has more than a buffer to write does not read. -/
def Blocked (st : Stage.{u, v} α) : Prop := st.buffer < st.pending.length

instance (st : Stage.{u, v} α) : Decidable st.Blocked := Nat.decLt _ _

def behind (σ : Type v) : Option σ → Phase σ
  | some s => .reading s
  | none => .closing

/-- The stage after one of its steps, and what the step puts into the outlet. -/
def act (outlet : Outlet) (inputEnds : Bool) (st : Stage.{u, v} α) :
    Action → Option (Stage.{u, v} α × List α)
  | .read n => match st.phase with
    | .reading s =>
        if st.input = [] ∨ st.Blocked then none
        else
          let fed := st.program.feed s (st.input.take (n + 1))
          some ({ st with
            phase := behind _ fed.1
            input := st.input.drop (n + 1)
            pending := st.pending ++ fed.2 }, [])
    | _ => none
  | .endOfInput => match st.phase with
    | .reading s =>
        if st.input ≠ [] ∨ st.Blocked ∨ inputEnds = false then none
        else some ({ st with phase := .closing, pending := st.pending ++ st.program.finish s }, [])
    | _ => none
  | .write n =>
      if st.phase.isExited ∨ st.pending = [] ∨
          ¬ outlet.Admits (st.pending.take (n + 1)).length then none
      else some ({ st with pending := st.pending.drop (n + 1) }, st.pending.take (n + 1))
  | .exit => match st.phase with
    | .closing => if st.pending = [] then some ({ st with phase := .exited }, []) else none
    | _ => none
  | .killed =>
      if st.phase.isExited ∨ st.pending = [] ∨ outlet ≠ .gone then none
      else some ({ st with phase := .exited, pending := [] }, [])

end Stage

/-- The stage in front of a stage has closed its end of the pipe. -/
def ended : List (Stage.{u, v} α) → Bool
  | [] => true
  | st :: _ => st.phase.isExited

/-- A step of the stage with some number, and what leaves the chain at its end. -/
def stepAt (outlet : Outlet) :
    List (Stage.{u, v} α) → Nat → Action → Option (List (Stage.{u, v} α) × List α)
  | [], _, _ => none
  | st :: up, 0, action =>
      (st.act outlet (ended up) action).map fun done => (done.1 :: up, done.2)
  | st :: up, i + 1, action =>
      (stepAt st.outlet up i action).map fun done =>
        ({ st with input := st.input ++ done.2 } :: done.1, [])

/-- What a chain will still put out. -/
def remaining : List (Stage.{u, v} α) → List α
  | [] => []
  | st :: up => match st.phase with
    | .reading s => st.pending ++ st.program.resume s (st.input ++ remaining up)
    | .closing => st.pending
    | .exited => []

/-- The chain with all that it has put out. -/
def step (sys : List (Stage.{u, v} α) × List α) (move : Nat × Action) :
    Option (List (Stage.{u, v} α) × List α) :=
  (stepAt .unlimited sys.1 move.1 move.2).map fun done => (done.1, sys.2 ++ done.2)

/-- What is still to be taken in and to be put out, with the steps to the ends. -/
def measure : List (Stage.{u, v} α) → Nat
  | [] => 0
  | st :: up =>
      st.input.length + (remaining up).length + (remaining (st :: up)).length + st.phase.left +
        measure up

section Phases

variable {st : Stage.{u, v} α} (up : List (Stage.{u, v} α))

theorem remaining_reading {s : st.program.State} (phase : st.phase = .reading s) :
    remaining (st :: up) = st.pending ++ st.program.resume s (st.input ++ remaining up) := by
  simp only [remaining, phase]

theorem remaining_closing (phase : st.phase = .closing) : remaining (st :: up) = st.pending := by
  simp only [remaining, phase]

theorem remaining_exited (phase : st.phase = .exited) : remaining (st :: up) = [] := by
  simp only [remaining, phase]

theorem isExited_iff {σ : Type v} {phase : Phase σ} : phase.isExited = true ↔ phase = .exited := by
  cases phase <;> simp [Phase.isExited]

theorem left_pos {σ : Type v} {phase : Phase σ} (alive : phase.isExited = false) :
    0 < phase.left := by
  cases phase <;> simp [Phase.left, Phase.isExited] at alive ⊢

variable {up}

theorem remaining_of_ended (all_ended : ended up = true) : remaining up = [] := by
  cases up with
  | nil => rfl
  | cons st up => exact remaining_exited up (isExited_iff.mp all_ended)

end Phases

/-- What a step does to the stage that takes it, with the chain in front of it. -/
structure Stepped (outlet : Outlet) (up : List (Stage.{u, v} α)) (st st' : Stage.{u, v} α)
    (bytes : List α) : Prop where
  kept : bytes ++ remaining (st' :: up) = remaining (st :: up) ∨
    outlet = .gone ∧ bytes = [] ∧ remaining (st' :: up) = []
  lower : st'.input.length + (remaining (st' :: up)).length + st'.phase.left <
    st.input.length + (remaining (st :: up)).length + st.phase.left
  capacity : st'.capacity = st.capacity

private theorem stepped_of_eq {outlet : Outlet} {up : List (Stage.{u, v} α)}
    {st st' : Stage.{u, v} α} {bytes : List α}
    (kept : bytes ++ remaining (st' :: up) = remaining (st :: up))
    (lower : st'.input.length + st'.phase.left < bytes.length + st.input.length + st.phase.left)
    (capacity : st'.capacity = st.capacity) : Stepped outlet up st st' bytes := by
  have lengths := congrArg List.length kept
  rw [List.length_append] at lengths
  exact ⟨.inl kept, by omega, capacity⟩

private theorem read_stepped {outlet : Outlet} {up : List (Stage.{u, v} α)}
    {st : Stage.{u, v} α} {s : st.program.State} (phase : st.phase = .reading s) (n : Nat)
    (some_input : st.input ≠ []) :
    Stepped outlet up st { st with
      phase := Stage.behind _ (st.program.feed s (st.input.take (n + 1))).1
      input := st.input.drop (n + 1)
      pending := st.pending ++ (st.program.feed s (st.input.take (n + 1))).2 } [] := by
  have split : st.input ++ remaining up =
      st.input.take (n + 1) ++ (st.input.drop (n + 1) ++ remaining up) := by
    rw [← List.append_assoc, List.take_append_drop]
  have taken : (st.input.drop (n + 1)).length < st.input.length := by
    have positive := List.length_pos_iff.mpr some_input
    rw [List.length_drop]
    omega
  have before := remaining_reading up phase
  rw [split, Program.resume_append] at before
  cases next : (st.program.feed s (st.input.take (n + 1))).1 with
  | none =>
      rw [next] at before
      apply stepped_of_eq
      · rw [before, List.nil_append, Option.elim_none, List.append_nil]
        exact remaining_closing up rfl
      · simp only [Phase.left, Stage.behind, phase, List.length_nil]
        omega
      · rfl
  | some s' =>
      rw [next] at before
      apply stepped_of_eq
      · rw [before, List.nil_append, Option.elim_some, ← List.append_assoc]
        exact remaining_reading up rfl
      · simp only [Phase.left, Stage.behind, phase, List.length_nil]
        omega
      · rfl

private theorem write_stepped {outlet : Outlet} {up : List (Stage.{u, v} α)}
    {st : Stage.{u, v} α} (n : Nat) (alive : st.phase.isExited = false)
    (some_output : st.pending ≠ []) :
    Stepped outlet up st { st with pending := st.pending.drop (n + 1) }
      (st.pending.take (n + 1)) := by
  have positive := List.length_pos_iff.mpr some_output
  apply stepped_of_eq
  · obtain ⟨program, phase, capacity, buffer, input, pending⟩ := st
    cases phase with
    | exited => cases alive
    | closing => simp [remaining]
    | reading s => simp [remaining, ← List.append_assoc]
  · rw [List.length_take]
    dsimp only
    omega
  · rfl

theorem act_spec {outlet : Outlet} {up : List (Stage.{u, v} α)} {st st' : Stage.{u, v} α}
    {action : Action} {bytes : List α}
    (stepped : st.act outlet (ended up) action = some (st', bytes)) :
    Stepped outlet up st st' bytes := by
  cases action with
  | read n =>
      cases phase : st.phase with
      | closing => simp [Stage.act, phase] at stepped
      | exited => simp [Stage.act, phase] at stepped
      | reading s =>
          simp only [Stage.act, phase] at stepped
          split_ifs at stepped with idle
          cases stepped
          exact read_stepped phase n (not_or.mp idle).1
  | endOfInput =>
      cases phase : st.phase with
      | closing => simp [Stage.act, phase] at stepped
      | exited => simp [Stage.act, phase] at stepped
      | reading s =>
          simp only [Stage.act, phase] at stepped
          split_ifs at stepped with idle
          cases stepped
          simp only [not_or, not_not, Bool.not_eq_false] at idle
          apply stepped_of_eq
          · rw [List.nil_append, remaining_closing up rfl, remaining_reading up phase, idle.1,
              remaining_of_ended idle.2.2]
            rfl
          · simp [Phase.left, phase]
          · rfl
  | write n =>
      simp only [Stage.act] at stepped
      split_ifs at stepped with idle
      cases stepped
      simp only [not_or, not_not, Bool.not_eq_true] at idle
      exact write_stepped n idle.1 idle.2.1
  | exit =>
      cases phase : st.phase with
      | reading s => simp [Stage.act, phase] at stepped
      | exited => simp [Stage.act, phase] at stepped
      | closing =>
          simp only [Stage.act, phase] at stepped
          split_ifs at stepped with empty
          cases stepped
          apply stepped_of_eq
          · rw [List.nil_append, remaining_exited up rfl, remaining_closing up phase, empty]
          · simp [Phase.left, phase]
          · rfl
  | killed =>
      simp only [Stage.act] at stepped
      split_ifs at stepped with idle
      cases stepped
      simp only [not_or, not_not, Bool.not_eq_true] at idle
      have dead : remaining ({ st with phase := .exited, pending := [] } :: up) = [] :=
        remaining_exited up rfl
      refine ⟨.inr ⟨idle.2.2, rfl, dead⟩, ?_, rfl⟩
      have alive : 0 < st.phase.left := left_pos idle.1
      rw [dead]
      simp only [Phase.left, List.length_nil] at alive ⊢
      omega

theorem outlet_eq_gone {st : Stage.{u, v} α} : st.outlet = .gone ↔ st.phase = .exited := by
  rw [Stage.outlet, ← isExited_iff]
  split_ifs with exited <;> simp [exited]

/-- What a step does to a chain. -/
structure ChainStepped (outlet : Outlet) (chain chain' : List (Stage.{u, v} α))
    (bytes : List α) : Prop where
  kept : bytes ++ remaining chain' = remaining chain ∨
    outlet = .gone ∧ bytes = [] ∧ remaining chain' = []
  lower : measure chain' < measure chain
  capacities : chain'.map Stage.capacity = chain.map Stage.capacity

theorem ChainStepped.length_le {outlet : Outlet} {chain chain' : List (Stage.{u, v} α)}
    {bytes : List α} (stepped : ChainStepped outlet chain chain' bytes) :
    bytes.length + (remaining chain').length ≤ (remaining chain).length := by
  rcases stepped.kept with same | ⟨-, rfl, dead⟩
  · rw [← same, List.length_append]
  · simp [dead]

private theorem remaining_cons_eq {st : Stage.{u, v} α} {up up' : List (Stage.{u, v} α)}
    {bytes : List α} (kept : bytes ++ remaining up' = remaining up ∨ st.phase = .exited) :
    remaining ({ st with input := st.input ++ bytes } :: up') = remaining (st :: up) := by
  obtain ⟨program, phase, capacity, buffer, input, pending⟩ := st
  cases phase with
  | exited => rfl
  | closing => rfl
  | reading s =>
      rcases kept with same | exited
      · simp [remaining, ← same]
      · cases exited

theorem stepAt_spec {outlet : Outlet} {chain chain' : List (Stage.{u, v} α)} {i : Nat}
    {action : Action} {bytes : List α}
    (stepped : stepAt outlet chain i action = some (chain', bytes)) :
    ChainStepped outlet chain chain' bytes := by
  induction chain generalizing outlet chain' i bytes with
  | nil => cases stepped
  | cons st up ih =>
      cases i with
      | zero =>
          obtain ⟨⟨st', out⟩, acted, equal⟩ := Option.map_eq_some_iff.mp stepped
          cases equal
          obtain ⟨kept, lower, capacity⟩ := act_spec acted
          refine ⟨kept, ?_, by simp [capacity]⟩
          simp only [measure]
          omega
      | succ i =>
          obtain ⟨⟨up', out⟩, later, equal⟩ := Option.map_eq_some_iff.mp stepped
          cases equal
          have inner := ih later
          have same : remaining ({ st with input := st.input ++ out } :: up') =
              remaining (st :: up) :=
            remaining_cons_eq (inner.kept.imp id fun dead => outlet_eq_gone.mp dead.1)
          refine ⟨.inl same, ?_, by simp [inner.capacities]⟩
          have shorter := inner.length_le
          have lower := inner.lower
          simp only [measure, same, List.length_append]
          omega

/-- What was put out and what is still to come, taken together, stay the same. -/
theorem run_conserves {sys sys' : List (Stage.{u, v} α) × List α}
    {schedule : List (Nat × Action)} (ran : Schedule.run step sys schedule = some sys') :
    sys'.2 ++ remaining sys'.1 = sys.2 ++ remaining sys.1 := by
  refine Schedule.run_preserves (fun now => now.2 ++ remaining now.1 = sys.2 ++ remaining sys.1)
    ?_ rfl ran
  intro now move next kept stepped
  obtain ⟨⟨chain', bytes⟩, done, equal⟩ := Option.map_eq_some_iff.mp stepped
  cases equal
  rcases (stepAt_spec done).kept with same | ⟨absurd, -⟩
  · rw [← kept, List.append_assoc, same]
  · cases absurd

theorem run_extends {sys sys' : List (Stage.{u, v} α) × List α}
    {schedule : List (Nat × Action)} (ran : Schedule.run step sys schedule = some sys') :
    ∃ out, sys'.2 = sys.2 ++ out ∧ out <+: remaining sys.1 := by
  have grows : ∃ out, sys'.2 = sys.2 ++ out := by
    refine Schedule.run_preserves (fun now => ∃ out, now.2 = sys.2 ++ out) ?_
      ⟨[], (List.append_nil _).symm⟩ ran
    rintro now move next ⟨out, same⟩ stepped
    obtain ⟨⟨chain', bytes⟩, -, equal⟩ := Option.map_eq_some_iff.mp stepped
    cases equal
    exact ⟨out ++ bytes, by rw [← List.append_assoc, ← same]⟩
  obtain ⟨out, same⟩ := grows
  have kept := run_conserves ran
  rw [same, List.append_assoc, List.append_cancel_left_eq] at kept
  exact ⟨out, same, remaining sys'.1, kept⟩

theorem length_run_le {sys sys' : List (Stage.{u, v} α) × List α}
    {schedule : List (Nat × Action)} (ran : Schedule.run step sys schedule = some sys') :
    schedule.length + measure sys'.1 ≤ measure sys.1 := by
  refine Schedule.length_le_of_decreasing (fun now => measure now.1) ?_ ran
  intro now move next stepped
  obtain ⟨⟨chain', bytes⟩, done, equal⟩ := Option.map_eq_some_iff.mp stepped
  cases equal
  exact (stepAt_spec done).lower

/-- Something can be written into the outlet, or its reader is gone. -/
def Outlet.Open : Outlet → Prop
  | .room n => 0 < n
  | _ => True

private theorem exists_act_of_pending {outlet : Outlet} (isOpen : outlet.Open)
    (inputEnds : Bool) {st : Stage.{u, v} α} (alive : st.phase.isExited = false)
    (some_output : st.pending ≠ []) : ∃ action, (st.act outlet inputEnds action).isSome := by
  have positive := List.length_pos_iff.mpr some_output
  cases outlet with
  | gone => exact ⟨.killed, by simp [Stage.act, alive, some_output]⟩
  | unlimited => exact ⟨.write 0, by simp [Stage.act, alive, some_output, Outlet.Admits]⟩
  | room n =>
      have fits : min 1 st.pending.length ≤ n := by
        have room : 0 < n := isOpen
        omega
      exact ⟨.write 0, by simp [Stage.act, alive, some_output, Outlet.Admits, fits]⟩

/-- While a stage has not exited, some stage can take a step. -/
theorem exists_stepAt {outlet : Outlet} (isOpen : outlet.Open) {chain : List (Stage.{u, v} α)}
    (room : ∀ st ∈ chain, 0 < st.capacity) (running : ∃ st ∈ chain, st.phase ≠ .exited) :
    ∃ i action, (stepAt outlet chain i action).isSome := by
  induction chain generalizing outlet with
  | nil => simp at running
  | cons st up ih =>
      rw [List.forall_mem_cons] at room
      have first : (∃ action, (st.act outlet (ended up) action).isSome) →
          ∃ i action, (stepAt outlet (st :: up) i action).isSome := by
        rintro ⟨action, acts⟩
        exact ⟨0, action, by simpa [stepAt] using acts⟩
      have later : st.outlet.Open → (∃ st ∈ up, st.phase ≠ .exited) →
          ∃ i action, (stepAt outlet (st :: up) i action).isSome := by
        intro outletOpen others
        obtain ⟨i, action, acts⟩ := ih outletOpen room.2 others
        exact ⟨i + 1, action, by simpa [stepAt] using acts⟩
      cases phase : st.phase with
      | exited =>
          apply later
          · rw [outlet_eq_gone.mpr phase]
            exact trivial
          · simpa [phase] using running
      | closing =>
          apply first
          by_cases empty : st.pending = []
          · exact ⟨.exit, by simp [Stage.act, phase, empty]⟩
          · exact exists_act_of_pending isOpen _ (by simp [phase, Phase.isExited]) empty
      | reading s =>
          by_cases empty : st.pending = []
          · have free : ¬ st.Blocked := by simp [Stage.Blocked, empty]
            by_cases none_left : st.input = []
            · cases all_ended : ended up with
              | true =>
                  apply first
                  exact ⟨.endOfInput, by simp [Stage.act, phase, none_left, free, all_ended]⟩
              | false =>
                  apply later
                  · simpa [Stage.outlet, phase, Phase.isExited, none_left, Outlet.Open] using room.1
                  · cases up with
                    | nil => cases all_ended
                    | cons next rest =>
                        refine ⟨next, List.mem_cons_self, fun exited => ?_⟩
                        simp [ended, exited, Phase.isExited] at all_ended
            · apply first
              exact ⟨.read 0, by simp [Stage.act, phase, none_left, free]⟩
          · exact first (exists_act_of_pending isOpen _ (by simp [phase, Phase.isExited]) empty)

theorem remaining_of_exited {chain : List (Stage.{u, v} α)}
    (exited : ∀ st ∈ chain, st.phase = .exited) : remaining chain = [] := by
  cases chain with
  | nil => rfl
  | cons st up => exact remaining_exited up (exited st List.mem_cons_self)

/-- A run that cannot be continued has brought all stages to their ends, and has put out all
that was to come. -/
theorem stuck_complete {sys sys' : List (Stage.{u, v} α) × List α}
    {schedule : List (Nat × Action)} (room : ∀ st ∈ sys.1, 0 < st.capacity)
    (ran : Schedule.run step sys schedule = some sys')
    (stuck : ∀ move, step sys' move = none) :
    (∀ st ∈ sys'.1, st.phase = .exited) ∧ sys'.2 = sys.2 ++ remaining sys.1 := by
  have kept : sys'.1.map Stage.capacity = sys.1.map Stage.capacity := by
    refine Schedule.run_preserves
      (fun now => now.1.map Stage.capacity = sys.1.map Stage.capacity) ?_ rfl ran
    intro now move next same stepped
    obtain ⟨⟨chain', bytes⟩, done, equal⟩ := Option.map_eq_some_iff.mp stepped
    cases equal
    exact (stepAt_spec done).capacities.trans same
  have roomLeft : ∀ st ∈ sys'.1, 0 < st.capacity := by
    intro st mem
    have capacity : st.capacity ∈ sys.1.map Stage.capacity := kept ▸ List.mem_map_of_mem mem
    obtain ⟨old, here, same⟩ := List.mem_map.mp capacity
    exact same ▸ room old here
  have exited : ∀ st ∈ sys'.1, st.phase = .exited := by
    by_contra running
    simp only [not_forall] at running
    obtain ⟨st, mem, alive⟩ := running
    have unlimited : Outlet.Open .unlimited := trivial
    obtain ⟨i, action, acts⟩ := exists_stepAt unlimited roomLeft ⟨st, mem, alive⟩
    have absurd := stuck (i, action)
    rw [step, Option.map_eq_none_iff] at absurd
    rw [absurd] at acts
    cases acts
  refine ⟨exited, ?_⟩
  rw [← run_conserves ran, remaining_of_exited exited, List.append_nil]

theorem exists_stuck (sys : List (Stage.{u, v} α) × List α) :
    ∃ schedule sys', Schedule.run step sys schedule = some sys' ∧
      ∀ move, step sys' move = none := by
  induction bound : measure sys.1 using Nat.strong_induction_on generalizing sys with
  | _ size ih =>
      by_cases stuck : ∀ move, step sys move = none
      · exact ⟨[], sys, rfl, stuck⟩
      · simp only [not_forall, ← ne_eq, Option.ne_none_iff_exists'] at stuck
        obtain ⟨move, next, stepped⟩ := stuck
        have one : Schedule.run step sys [move] = some next :=
          (Schedule.run_cons step stepped []).trans rfl
        have shorter := length_run_le one
        rw [List.length_singleton] at shorter
        obtain ⟨rest, last, ran, ends⟩ := ih (measure next.1) (by omega) next rfl
        exact ⟨move :: rest, last, (Schedule.run_cons step stepped rest).trans ran, ends⟩

section Lines

variable {τ : Type v} [DecidableEq α] (sep : α) (onLine : τ → List α → Option τ × List α)

/-- A program that keeps the items of an unfinished line, and works on whole lines. -/
abbrev lineProgram : Program.{u, max u v} α where
  State := τ × List α
  step s x :=
    if x = sep then
      ((onLine s.1 (s.2 ++ [x])).1.map fun t => (t, []), (onLine s.1 (s.2 ++ [x])).2)
    else (some (s.1, s.2 ++ [x]), [])
  finish s := if s.2 = [] then [] else (onLine s.1 s.2).2

/-- What the lines give, until one of them stops the work. -/
def linesOut : τ → List (List α) → List α
  | _, [] => []
  | t, line :: rest => match onLine t line with
    | (some t', out) => out ++ linesOut t' rest
    | (none, out) => out

omit [DecidableEq α] in
theorem linesOut_cons (t : τ) (line : List α) (rest : List (List α)) :
    linesOut onLine t (line :: rest) =
      (onLine t line).2 ++ (onLine t line).1.elim [] fun t' => linesOut onLine t' rest := by
  rw [linesOut]
  cases onLine t line with
  | mk next out => cases next <;> simp

theorem lineProgram_resume_cons (t : τ) (line : List α) (x : α) (xs : List α) :
    (lineProgram sep onLine).resume (t, line) (x :: xs) =
      if x = sep then
        (onLine t (line ++ [x])).2 ++ (onLine t (line ++ [x])).1.elim [] fun t' =>
          (lineProgram sep onLine).resume (t', []) xs
      else (lineProgram sep onLine).resume (t, line ++ [x]) xs := by
  have step : (lineProgram sep onLine).step (t, line) x =
      if x = sep then
        ((onLine t (line ++ [x])).1.map fun t => (t, []), (onLine t (line ++ [x])).2)
      else (some (t, line ++ [x]), []) := rfl
  rw [Program.resume_cons, step]
  split_ifs
  · cases onLine t (line ++ [x]) with
    | mk next out => cases next <;> rfl
  · rfl

theorem lineProgram_resume (t : τ) {line : List α} (unfinished : sep ∉ line) (xs : List α) :
    (lineProgram sep onLine).resume (t, line) xs =
      linesOut onLine t (Lines.pieces sep (line ++ xs)) := by
  induction xs generalizing t line with
  | nil =>
      change (if line = [] then [] else (onLine t line).2) = _
      rw [List.append_nil]
      split_ifs with empty
      · rw [empty]
        rfl
      · rw [Lines.pieces_tail unfinished empty, linesOut_cons]
        cases (onLine t line).1 <;> simp [linesOut]
  | cons x xs ih =>
      rw [lineProgram_resume_cons]
      split_ifs with last
      · have cut : Lines.pieces sep (line ++ x :: xs) = (line ++ [x]) :: Lines.pieces sep xs := by
          rw [last, List.append_cons, Lines.pieces_append (Lines.closed_line line),
            Lines.pieces_line unfinished]
          rfl
        have rest : ∀ t', (lineProgram sep onLine).resume (t', []) xs =
            linesOut onLine t' (Lines.pieces sep xs) := fun t' => ih t' List.not_mem_nil
        rw [cut, linesOut_cons]
        simp only [rest]
      · have longer : sep ∉ line ++ [x] := by simp [unfinished, Ne.symm last]
        rw [ih t longer, List.append_assoc]
        rfl

end Lines

end StreamDataPipeline.Foundations.PipeChain
