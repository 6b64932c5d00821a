/- Processes that share one file name and take an exclusive lock on what they opened. -/

import Mathlib.Data.List.Basic
import Mathlib.Data.List.Nodup
import Mathlib.Logic.Function.Basic
import StreamDataPipeline.Foundations.Schedule

/-!
A name is bound to an inode when it is opened; the lock belongs to the inode, and a rename
binds the name to another one. If every process that obtains the lock still holds the inode
that the name is bound to, the processes act one after another, in the order of their locks.
-/

set_option autoImplicit false
set_option relaxedAutoImplicit false

namespace StreamDataPipeline.Foundations.LockedFile

universe u v w

variable {ι : Type u} {α : Type v} {σ : Type w}

/-- One action of a process that holds the lock. -/
inductive Effect (α : Type v) (σ : Type w)
  | read (next : σ)
  | write (content : α) (next : σ)
  | openTmp (next : σ)
  | writeTmp (content : α) (next : σ)
  | rename
  | abandon
  | stop (status : Nat)

/-- What the processes do: `entry` is the state in which a process takes the lock, `none` one
that exits with status 1 before it opens the file. The next action depends on the contents
of the locked file and of the temporary one. -/
structure Program (ι : Type u) (α : Type v) (σ : Type w) where
  empty : α
  entry : ι → Option σ
  body : σ → α → α → Effect α σ

inductive Proc (σ : Type w)
  | start
  | waiting (fd : Nat) (s : σ)
  | inside (fd : Nat) (tmpFd : Option Nat) (s : σ)
  | closing (fd status : Nat)
  | exited (status : Nat)

def Proc.exitStatus : Proc σ → Option Nat
  | .exited status => some status
  | _ => none

theorem Proc.exitStatus_eq_some {s : Proc σ} {status : Nat} :
    s.exitStatus = some status ↔ s = .exited status := by
  cases s <;> simp [Proc.exitStatus]

/-- Contents by inode, the inodes used so far, the bindings of the two names, the lock of
every inode and the processes. -/
structure World (ι : Type u) (α : Type v) (σ : Type w) where
  disk : Nat → α
  used : Nat
  path : Option Nat
  tmp : Option Nat
  holder : Nat → Option ι
  procs : ι → Proc σ

/-- The content that the name stands for; an absent file reads as the empty one. -/
def World.content (empty : α) (w : World ι α σ) : α := w.path.elim empty w.disk

def World.store (w : World ι α σ) (fd : Nat) (content : α) : World ι α σ :=
  { w with disk := Function.update w.disk fd content }

section Step

variable [DecidableEq ι] (prog : Program ι α σ)

def World.become (w : World ι α σ) (p : ι) (s : Proc σ) : World ι α σ :=
  { w with procs := Function.update w.procs p s }

/-- `open` with `O_CREAT`. -/
def openPath (w : World ι α σ) (p : ι) (s : σ) : World ι α σ :=
  match w.path with
  | some fd => w.become p (.waiting fd s)
  | none =>
      { w.store w.used prog.empty with used := w.used + 1, path := some w.used }.become p
        (.waiting w.used s)

/-- `flock`; the process waits while another one holds the lock of the inode. -/
def obtainLock (w : World ι α σ) (p : ι) (fd : Nat) (s : σ) : Option (World ι α σ) :=
  match w.holder fd with
  | some _ => none
  | none =>
      some ({ w with holder := Function.update w.holder fd (some p) }.become p (.inside fd none s))

/-- `open` with `O_CREAT` and `O_TRUNC`. -/
def openTmp (w : World ι α σ) (p : ι) (fd : Nat) (s : σ) : World ι α σ :=
  match w.tmp with
  | some t => (w.store t prog.empty).become p (.inside fd (some t) s)
  | none =>
      { w.store w.used prog.empty with used := w.used + 1, tmp := some w.used }.become p
        (.inside fd (some w.used) s)

def perform (w : World ι α σ) (p : ι) (fd : Nat) (tmpFd : Option Nat) :
    Effect α σ → World ι α σ
  | .read next => w.become p (.inside fd tmpFd next)
  | .write content next => (w.store fd content).become p (.inside fd tmpFd next)
  | .openTmp next => openTmp prog w p fd next
  | .writeTmp content next => match tmpFd with
    | some t => (w.store t content).become p (.inside fd tmpFd next)
    | none => w.become p (.closing fd 1)
  | .rename => match w.tmp with
    | some t => { w with path := some t, tmp := none }.become p (.closing fd 0)
    | none => w.become p (.closing fd 1)
  | .abandon => { w with tmp := none }.become p (.closing fd 1)
  | .stop status => w.become p (.closing fd status)

/-- One step of one process; `none` where it cannot move. -/
def step (w : World ι α σ) (p : ι) : Option (World ι α σ) :=
  match w.procs p with
  | .start => match prog.entry p with
    | none => some (w.become p (.exited 1))
    | some s => some (openPath prog w p s)
  | .waiting fd s => obtainLock w p fd s
  | .inside fd tmpFd s =>
      some (perform prog w p fd tmpFd
        (prog.body s (w.disk fd) ((tmpFd.map w.disk).getD prog.empty)))
  | .closing fd status =>
      some ({ w with holder := Function.update w.holder fd none }.become p (.exited status))
  | .exited _ => none

/-- A process that waits for the lock waits on the inode that the name is bound to. -/
def Fresh (w : World ι α σ) (p : ι) : Prop :=
  match w.procs p with
  | .waiting fd _ => w.path = some fd
  | _ => True

instance (w : World ι α σ) (p : ι) : Decidable (Fresh w p) :=
  match h : w.procs p with
  | .waiting fd _ => decidable_of_iff (w.path = some fd) (by simp [Fresh, h])
  | .start | .inside _ _ _ | .closing _ _ | .exited _ => isTrue (by simp [Fresh, h])

end Step

/-- No process has begun, no lock is held, and the two names are different files. -/
structure Initial (w : World ι α σ) : Prop where
  procs : ∀ p, w.procs p = .start
  holder : ∀ fd, w.holder fd = none
  named : ∀ fd, w.path = some fd → fd < w.used
  tmpNamed : ∀ t, w.tmp = some t → t < w.used ∧ w.path ≠ some t

/-- What a process that is alone makes of the file, and its exit status. -/
inductive Finishes (prog : Program ι α σ) : σ → α → Option α → α × Nat → Prop
  | read {s next : σ} {file : α} {tmp : Option α} {out : α × Nat}
      (acts : prog.body s file (tmp.getD prog.empty) = .read next)
      (rest : Finishes prog next file tmp out) : Finishes prog s file tmp out
  | write {s next : σ} {file content : α} {tmp : Option α} {out : α × Nat}
      (acts : prog.body s file (tmp.getD prog.empty) = .write content next)
      (rest : Finishes prog next content tmp out) : Finishes prog s file tmp out
  | openTmp {s next : σ} {file : α} {tmp : Option α} {out : α × Nat}
      (acts : prog.body s file (tmp.getD prog.empty) = .openTmp next)
      (rest : Finishes prog next file (some prog.empty) out) : Finishes prog s file tmp out
  | writeTmp {s next : σ} {file content written : α} {out : α × Nat}
      (acts : prog.body s file written = .writeTmp content next)
      (rest : Finishes prog next file (some content) out) :
      Finishes prog s file (some written) out
  | rename {s : σ} {file written : α} (acts : prog.body s file written = .rename) :
      Finishes prog s file (some written) (written, 0)
  | abandon {s : σ} {file : α} {tmp : Option α}
      (acts : prog.body s file (tmp.getD prog.empty) = .abandon) :
      Finishes prog s file tmp (file, 1)
  | stop {s : σ} {file : α} {tmp : Option α} {status : Nat}
      (acts : prog.body s file (tmp.getD prog.empty) = .stop status) :
      Finishes prog s file tmp (file, status)

/-- The file after the operations were run one after another. -/
def serialRun (serial : ι → α → α × Nat) (order : List ι) (file : α) : α :=
  order.foldl (fun file p => (serial p file).1) file

/-- The process has a place in the order, and there it exits with the status. -/
def Placed (serial : ι → α → α × Nat) (file : α) (order : List ι) (p : ι) (status : Nat) : Prop :=
  ∃ earlier later, order = earlier ++ p :: later ∧
    (serial p (serialRun serial earlier file)).2 = status

/-- What is known of one process when `order` is the order of the locks so far. -/
def ProcOk (prog : Program ι α σ) (serial : ι → α → α × Nat) (file : α) (w : World ι α σ)
    (order : List ι) (p : ι) : Proc σ → Prop
  | .start => p ∉ order
  | .waiting _ s => p ∉ order ∧ prog.entry p = some s
  | .inside fd tmpFd s => w.holder fd = some p ∧ w.path = some fd ∧
      (∀ t, tmpFd = some t → w.tmp = some t) ∧ ∃ earlier, order = earlier ++ [p] ∧
        Finishes prog s (w.disk fd) (tmpFd.map w.disk) (serial p (serialRun serial earlier file))
  | .closing fd status => w.holder fd = some p ∧ Placed serial file order p status
  | .exited status => Placed serial file order p status ∨ (prog.entry p = none ∧ status = 1)

def Proc.IsInside : Proc σ → Prop
  | .inside _ _ _ => True
  | _ => False

/-- The processes acted one after another in the order of their locks. -/
structure Serialised (prog : Program ι α σ) (serial : ι → α → α × Nat) (file : α)
    (w : World ι α σ) (order : List ι) : Prop where
  nodup : order.Nodup
  named : ∀ fd, w.path = some fd → fd < w.used
  tmpNamed : ∀ t, w.tmp = some t → t < w.used ∧ w.path ≠ some t
  procs : ∀ p, ProcOk prog serial file w order p (w.procs p)
  settled : (∀ p, ¬ (w.procs p).IsInside) → w.content prog.empty = serialRun serial order file

variable {prog : Program ι α σ} {serial : ι → α → α × Nat} {file : α} {w : World ι α σ}
  {order : List ι}

theorem serialRun_concat (order : List ι) (p : ι) (file : α) :
    serialRun serial (order ++ [p]) file = (serial p (serialRun serial order file)).1 := by
  simp [serialRun]

private theorem Placed.concat {p : ι} {status : Nat} (placed : Placed serial file order p status)
    (q : ι) : Placed serial file (order ++ [q]) p status := by
  obtain ⟨earlier, later, rfl, same⟩ := placed
  exact ⟨earlier, later ++ [q], by simp, same⟩

private theorem Serialised.inside_unique (kept : Serialised prog serial file w order) {p q : ι}
    (hp : (w.procs p).IsInside) (hq : (w.procs q).IsInside) : p = q := by
  have okp := kept.procs p
  have okq := kept.procs q
  cases sp : w.procs p with
  | inside fd tmpFd s =>
      cases sq : w.procs q with
      | inside fd' tmpFd' s' =>
          rw [sp] at okp
          rw [sq] at okq
          have same : fd = fd' := Option.some.inj (okp.2.1.symm.trans okq.2.1)
          have holds := okp.1
          rw [same, okq.1] at holds
          exact (Option.some.inj holds).symm
      | _ => simp [sq, Proc.IsInside] at hq
  | _ => simp [sp, Proc.IsInside] at hp

private theorem procOk_outside {w' : World ι α σ} {q : ι} {state : Proc σ}
    (ok : ProcOk prog serial file w order q state) (outside : ¬ state.IsInside)
    (locks : ∀ fd, w.holder fd = some q → w'.holder fd = some q) :
    ProcOk prog serial file w' order q state := by
  cases state with
  | inside fd tmpFd s => exact absurd trivial outside
  | closing fd status => exact ⟨locks fd ok.1, ok.2⟩
  | _ => exact ok

section Steps

variable [DecidableEq ι]

private theorem serialised_become {p : ι} {state : Proc σ} (nodup : order.Nodup)
    (named : ∀ fd, w.path = some fd → fd < w.used)
    (tmpNamed : ∀ t, w.tmp = some t → t < w.used ∧ w.path ≠ some t)
    (mine : ProcOk prog serial file w order p state)
    (others : ∀ q, q ≠ p → ProcOk prog serial file w order q (w.procs q))
    (settled : ¬ state.IsInside → (∀ q, q ≠ p → ¬ (w.procs q).IsInside) →
      w.content prog.empty = serialRun serial order file) :
    Serialised prog serial file (w.become p state) order := by
  have at_p : (w.become p state).procs p = state := Function.update_self ..
  have at_other (q : ι) (h : q ≠ p) : (w.become p state).procs q = w.procs q :=
    Function.update_of_ne h ..
  refine ⟨nodup, named, tmpNamed, fun q => ?_, fun quiet => ?_⟩
  · have moved : ProcOk prog serial file w order q ((w.become p state).procs q) := by
      by_cases same : q = p
      · rw [same, at_p]
        exact mine
      · rw [at_other q same]
        exact others q same
    revert moved
    cases (w.become p state).procs q <;> exact id
  · refine settled (at_p ▸ quiet p) fun q other => ?_
    rw [← at_other q other]
    exact quiet q

private theorem openPath_serialised (kept : Serialised prog serial file w order) {p : ι} {s : σ}
    (start : w.procs p = .start) (entry : prog.entry p = some s) :
    Serialised prog serial file (openPath prog w p s) order := by
  have absent : p ∉ order := by simpa [start, ProcOk] using kept.procs p
  have notInside : ¬ (w.procs p).IsInside := by simp [start, Proc.IsInside]
  unfold openPath
  split
  · refine serialised_become kept.nodup kept.named kept.tmpNamed ⟨absent, entry⟩
      (fun q _ => kept.procs q) fun _ quiet => kept.settled fun q => ?_
    by_cases same : q = p
    · exact same ▸ notInside
    · exact quiet q same
  · rename_i unbound
    -- nobody can be inside a file that does not exist
    have quiet (q : ι) : ¬ (w.procs q).IsInside := by
      intro inside
      have ok := kept.procs q
      cases state : w.procs q with
      | inside fd tmpFd s' => simp [state, ProcOk, unbound] at ok
      | _ => simp [state, Proc.IsInside] at inside
    have before := kept.settled quiet
    refine serialised_become kept.nodup (fun fd h => ?_) (fun t h => ?_) ⟨absent, entry⟩
      (fun q _ => procOk_outside (kept.procs q) (quiet q) fun _ h => h) fun _ _ => ?_
    · obtain rfl := Option.some.inj h
      exact Nat.lt_succ_self _
    · have below := (kept.tmpNamed t h).1
      refine ⟨Nat.lt_succ_of_lt below, fun equal => ?_⟩
      exact Nat.lt_irrefl _ (Option.some.inj equal ▸ below)
    · rw [← before]
      simp [World.content, World.store, unbound]

private theorem obtainLock_serialised (kept : Serialised prog serial file w order) {p : ι} {s : σ}
    {fd : Nat} (waiting : w.procs p = .waiting fd s) (fresh : w.path = some fd)
    (solo : ∀ before, Finishes prog s before none (serial p before))
    {w' : World ι α σ} (obtained : obtainLock w p fd s = some w') :
    Serialised prog serial file w' (order ++ [p]) := by
  unfold obtainLock at obtained
  split at obtained
  · cases obtained
  rename_i free
  cases obtained
  have mineBefore := kept.procs p
  rw [waiting] at mineBefore
  have quiet (q : ι) : ¬ (w.procs q).IsInside := by
    intro inside
    have ok := kept.procs q
    cases state : w.procs q with
    | inside fd' tmpFd s' =>
        rw [state] at ok
        have same : fd = fd' := Option.some.inj (fresh.symm.trans ok.2.1)
        rw [same, ok.1] at free
        cases free
    | _ => simp [state, Proc.IsInside] at inside
  have before := kept.settled quiet
  have content : w.content prog.empty = w.disk fd := by simp [World.content, fresh]
  refine serialised_become ?_ kept.named kept.tmpNamed ?_ (fun q other => ?_) fun notInside => ?_
  · exact List.nodup_append.mpr ⟨kept.nodup, List.nodup_singleton p, fun a ha b hb equal =>
      mineBefore.1 (List.mem_singleton.mp hb ▸ equal ▸ ha)⟩
  · refine ⟨Function.update_self .., fresh, fun t h => (by cases h), order, rfl, ?_⟩
    rw [← before, content]
    exact solo _
  · have ok := kept.procs q
    cases state : w.procs q with
    | start => simpa [state, ProcOk, other] using ok
    | waiting fd' s' => simpa [state, ProcOk, other] using ok
    | inside fd' tmpFd s' => exact absurd (by rw [state]; trivial) (quiet q)
    | closing fd' status =>
        rw [state] at ok
        have different : fd' ≠ fd := by
          rintro rfl
          rw [ok.1] at free
          cases free
        exact ⟨by simpa [Function.update_of_ne different] using ok.1, ok.2.concat p⟩
    | exited status =>
        rw [state] at ok
        exact ok.imp (fun placed => placed.concat p) id
  · exact absurd trivial notInside

private theorem Serialised.inside_moves (kept : Serialised prog serial file w order) {p : ι}
    (inside : (w.procs p).IsInside) (w' : World ι α σ) (procs : w'.procs = w.procs)
    (locks : w'.holder = w.holder) (named : ∀ fd, w'.path = some fd → fd < w'.used)
    (tmpNamed : ∀ t, w'.tmp = some t → t < w'.used ∧ w'.path ≠ some t) {state : Proc σ}
    (mine : ProcOk prog serial file w' order p state)
    (settled : ¬ state.IsInside → w'.content prog.empty = serialRun serial order file) :
    Serialised prog serial file (w'.become p state) order := by
  refine serialised_become kept.nodup named tmpNamed mine ?_ fun notInside _ => settled notInside
  intro q other
  have outside : ¬ (w.procs q).IsInside := fun h => other (kept.inside_unique h inside)
  rw [procs]
  exact procOk_outside (kept.procs q) outside fun fd h => locks ▸ h

section Inside

variable {p : ι} {s next : σ} {fd t : Nat} {tmpFd : Option Nat} {earlier : List ι}

omit [DecidableEq ι] in
private theorem Serialised.tmp_apart (kept : Serialised prog serial file w order)
    (bound : w.path = some fd) (named : w.tmp = some t) : t ≠ fd := by
  intro equal
  exact (kept.tmpNamed t named).2 (equal ▸ bound)

private theorem Serialised.goes_on (kept : Serialised prog serial file w order)
    (state : w.procs p = .inside fd tmpFd s) (shape : order = earlier ++ [p])
    (w' : World ι α σ) (procs : w'.procs = w.procs) (locks : w'.holder = w.holder)
    (path : w'.path = w.path) (used : w.used ≤ w'.used)
    (tmpNamed : ∀ t, w'.tmp = some t → t < w'.used ∧ w'.path ≠ some t) {tmpFd' : Option Nat}
    (sameTmp : ∀ t, tmpFd' = some t → w'.tmp = some t)
    (rest : Finishes prog next (w'.disk fd) (tmpFd'.map w'.disk)
      (serial p (serialRun serial earlier file))) :
    Serialised prog serial file (w'.become p (.inside fd tmpFd' next)) order := by
  have mine := kept.procs p
  rw [state] at mine
  refine kept.inside_moves (by rw [state]; trivial) w' procs locks ?_ tmpNamed
    ⟨locks ▸ mine.1, path ▸ mine.2.1, sameTmp, earlier, shape, rest⟩ (absurd trivial)
  intro fd' named
  exact Nat.lt_of_lt_of_le (kept.named fd' (path ▸ named)) used

private theorem Serialised.leaves (kept : Serialised prog serial file w order)
    (state : w.procs p = .inside fd tmpFd s) (shape : order = earlier ++ [p])
    (w' : World ι α σ) (procs : w'.procs = w.procs) (locks : w'.holder = w.holder)
    (named : ∀ fd, w'.path = some fd → fd < w'.used)
    (tmpNamed : ∀ t, w'.tmp = some t → t < w'.used ∧ w'.path ≠ some t) {status : Nat}
    (out : serial p (serialRun serial earlier file) = (w'.content prog.empty, status)) :
    Serialised prog serial file (w'.become p (.closing fd status)) order := by
  have mine := kept.procs p
  rw [state] at mine
  refine kept.inside_moves (by rw [state]; trivial) w' procs locks named tmpNamed
    ⟨locks ▸ mine.1, earlier, [], shape, by rw [out]⟩ fun _ => ?_
  rw [shape, serialRun_concat, out]

private theorem write_serialised (kept : Serialised prog serial file w order)
    (state : w.procs p = .inside fd tmpFd s) (shape : order = earlier ++ [p])
    (bound : w.path = some fd) (sameTmp : ∀ t, tmpFd = some t → w.tmp = some t) {content : α}
    (rest : Finishes prog next content (tmpFd.map w.disk)
      (serial p (serialRun serial earlier file))) :
    Serialised prog serial file ((w.store fd content).become p (.inside fd tmpFd next)) order := by
  have sameOther : tmpFd.map (w.store fd content).disk = tmpFd.map w.disk := by
    apply Option.map_congr
    intro t opened
    exact Function.update_of_ne (kept.tmp_apart bound (sameTmp t opened)) ..
  refine kept.goes_on state shape (w.store fd content) rfl rfl rfl (Nat.le_refl _) kept.tmpNamed
    sameTmp ?_
  rw [sameOther]
  simpa [World.store] using rest

private theorem openTmp_serialised (kept : Serialised prog serial file w order)
    (state : w.procs p = .inside fd tmpFd s) (shape : order = earlier ++ [p])
    (bound : w.path = some fd)
    (rest : Finishes prog next (w.disk fd) (some prog.empty)
      (serial p (serialRun serial earlier file))) :
    Serialised prog serial file (openTmp prog w p fd next) order := by
  unfold openTmp
  split
  · rename_i t named
    refine kept.goes_on state shape (w.store t prog.empty) rfl rfl rfl (Nat.le_refl _) kept.tmpNamed
      (fun t' opened => opened ▸ named) ?_
    simpa [World.store, Function.update_of_ne (kept.tmp_apart bound named).symm] using rest
  · have old : fd ≠ w.used := Nat.ne_of_lt (kept.named fd bound)
    refine kept.goes_on state shape
      { w.store w.used prog.empty with used := w.used + 1, tmp := some w.used } rfl rfl rfl
      (Nat.le_succ _) (fun t named => ?_) (fun t' opened => opened) ?_
    · obtain rfl := Option.some.inj named
      refine ⟨Nat.lt_succ_self _, ?_⟩
      intro equal
      exact old (Option.some.inj (bound.symm.trans equal))
    · simpa [World.store, Function.update_of_ne old] using rest

private theorem writeTmp_serialised (kept : Serialised prog serial file w order)
    (state : w.procs p = .inside fd (some t) s) (shape : order = earlier ++ [p])
    (bound : w.path = some fd) (named : w.tmp = some t) {content : α}
    (rest : Finishes prog next (w.disk fd) (some content)
      (serial p (serialRun serial earlier file))) :
    Serialised prog serial file
      ((w.store t content).become p (.inside fd (some t) next)) order := by
  refine kept.goes_on state shape (w.store t content) rfl rfl rfl (Nat.le_refl _) kept.tmpNamed
    (fun t' opened => opened ▸ named) ?_
  simpa [World.store, Function.update_of_ne (kept.tmp_apart bound named).symm] using rest

private theorem rename_serialised (kept : Serialised prog serial file w order)
    (state : w.procs p = .inside fd (some t) s) (shape : order = earlier ++ [p])
    (named : w.tmp = some t)
    (out : serial p (serialRun serial earlier file) = (w.disk t, 0)) :
    Serialised prog serial file
      ({ w with path := some t, tmp := none }.become p (.closing fd 0)) order := by
  refine kept.leaves state shape { w with path := some t, tmp := none } rfl rfl
    (fun fd' bound => ?_) (fun t' absent => nomatch absent) out
  exact Option.some.inj bound ▸ (kept.tmpNamed t named).1

/-- An action of the process inside keeps what remains to be done equal to the serial run. -/
private theorem perform_serialised (kept : Serialised prog serial file w order)
    (state : w.procs p = .inside fd tmpFd s) :
    Serialised prog serial file
      (perform prog w p fd tmpFd (prog.body s (w.disk fd) ((tmpFd.map w.disk).getD prog.empty)))
      order := by
  have mine := kept.procs p
  rw [state] at mine
  obtain ⟨-, bound, sameTmp, earlier, shape, finishes⟩ := mine
  have content : w.content prog.empty = w.disk fd := by simp [World.content, bound]
  generalize fileEq : w.disk fd = now at finishes ⊢
  generalize tmpEq : tmpFd.map w.disk = tmp at finishes ⊢
  generalize outEq : serial p (serialRun serial earlier file) = out at finishes
  cases finishes with
  | read acts rest =>
      rw [acts, perform]
      refine kept.goes_on state shape w rfl rfl rfl (Nat.le_refl _) kept.tmpNamed sameTmp ?_
      rwa [fileEq, tmpEq, outEq]
  | write acts rest =>
      rw [acts, perform]
      exact write_serialised kept state shape bound sameTmp (by rwa [tmpEq, outEq])
  | openTmp acts rest =>
      rw [acts, perform]
      exact openTmp_serialised kept state shape bound (by rwa [fileEq, outEq])
  | writeTmp acts rest =>
      obtain ⟨t, rfl, rfl⟩ := Option.map_eq_some_iff.mp tmpEq
      rw [show prog.body s now ((some (w.disk t)).getD prog.empty) = _ from acts, perform]
      exact writeTmp_serialised kept state shape bound (sameTmp t rfl) (by rwa [fileEq, outEq])
  | rename acts =>
      obtain ⟨t, rfl, rfl⟩ := Option.map_eq_some_iff.mp tmpEq
      have named := sameTmp t rfl
      rw [show prog.body s now ((some (w.disk t)).getD prog.empty) = _ from acts]
      simp only [perform, named]
      exact rename_serialised kept state shape named outEq
  | abandon acts =>
      rw [acts, perform]
      refine kept.leaves state shape { w with tmp := none } rfl rfl kept.named
        (fun t absent => nomatch absent) ?_
      rw [outEq, ← fileEq, ← content]
      rfl
  | stop acts =>
      rw [acts, perform]
      refine kept.leaves state shape w rfl rfl kept.named kept.tmpNamed ?_
      rw [outEq, ← fileEq, content]

end Inside

private theorem close_serialised (kept : Serialised prog serial file w order) {p : ι}
    {fd status : Nat} (closing : w.procs p = .closing fd status) :
    Serialised prog serial file
      ({ w with holder := Function.update w.holder fd none }.become p (.exited status)) order := by
  have mine := kept.procs p
  rw [closing] at mine
  have notInside : ¬ (w.procs p).IsInside := by simp [closing, Proc.IsInside]
  refine serialised_become kept.nodup kept.named kept.tmpNamed (.inl mine.2)
    (fun q other => ?_) fun _ quiet => kept.settled fun q => ?_
  · have keeps (fd' : Nat) (h : w.holder fd' = some q) :
        Function.update w.holder fd none fd' = some q := by
      have different : fd' ≠ fd := by
        rintro rfl
        exact other (Option.some.inj (h.symm.trans mine.1))
      rw [Function.update_of_ne different, h]
    have ok := kept.procs q
    cases state : w.procs q with
    | inside fd' tmpFd s =>
        rw [state] at ok
        exact ⟨keeps fd' ok.1, ok.2⟩
    | closing fd' status' =>
        rw [state] at ok
        exact ⟨keeps fd' ok.1, ok.2⟩
    | _ => simpa [state, ProcOk] using ok
  · by_cases same : q = p
    · exact same ▸ notInside
    · exact quiet q same

/-- One step of a `Fresh` process extends the order by at most that process. -/
theorem step_serialised (solo : ∀ p s, prog.entry p = some s →
      ∀ before, Finishes prog s before none (serial p before))
    (kept : Serialised prog serial file w order) {p : ι} (fresh : Fresh w p) {w' : World ι α σ}
    (stepped : step prog w p = some w') : ∃ order', Serialised prog serial file w' order' := by
  unfold step at stepped
  have mine := kept.procs p
  cases state : w.procs p with
  | start =>
      rw [state] at stepped mine
      cases entry : prog.entry p with
      | none =>
          simp only [entry] at stepped
          cases stepped
          refine ⟨order, serialised_become kept.nodup kept.named kept.tmpNamed
            (.inr ⟨entry, rfl⟩) (fun q _ => kept.procs q) fun _ quiet => kept.settled fun q => ?_⟩
          by_cases same : q = p
          · simp [same, state, Proc.IsInside]
          · exact quiet q same
      | some s =>
          simp only [entry] at stepped
          cases stepped
          exact ⟨order, openPath_serialised kept state entry⟩
  | waiting fd s =>
      rw [state] at stepped mine
      have bound : w.path = some fd := by simpa [Fresh, state] using fresh
      exact ⟨order ++ [p], obtainLock_serialised kept state bound (solo p s mine.2) stepped⟩
  | inside fd tmpFd s =>
      rw [state] at stepped
      cases stepped
      exact ⟨order, perform_serialised kept state⟩
  | closing fd status =>
      rw [state] at stepped
      cases stepped
      exact ⟨order, close_serialised kept state⟩
  | exited status =>
      rw [state] at stepped
      cases stepped

/-- When all processes have exited, the file is what the operations leave that run one after
another in some order, and every process exits with the status it has there. -/
theorem exited_serialised (solo : ∀ p s, prog.entry p = some s →
      ∀ before, Finishes prog s before none (serial p before)) {w w' : World ι α σ}
    (initial : Initial w) {schedule : List ι}
    (fresh : Schedule.Guarded (step prog) Fresh w schedule)
    (ran : Schedule.run (step prog) w schedule = some w')
    (exited : ∀ p, ((w'.procs p).exitStatus).isSome) :
    ∃ order : List ι, order.Nodup ∧
      w'.content prog.empty = serialRun serial order (w.content prog.empty) ∧
      ∀ p status, (w'.procs p).exitStatus = some status →
        Placed serial (w.content prog.empty) order p status ∨
          (prog.entry p = none ∧ status = 1) := by
  have start : Serialised prog serial (w.content prog.empty) w [] :=
    ⟨List.nodup_nil, initial.named, initial.tmpNamed,
      fun p => by simp [initial.procs p, ProcOk], fun _ => rfl⟩
  obtain ⟨order, kept⟩ := Schedule.run_invariant (step prog) Fresh
    (fun w => ∃ order, Serialised prog serial (World.content prog.empty _) w order)
    (fun ⟨_, kept⟩ fresh stepped => step_serialised solo kept fresh stepped) ⟨[], start⟩ fresh ran
  refine ⟨order, kept.nodup, kept.settled fun p => ?_, fun p status h => ?_⟩
  · obtain ⟨status, h⟩ := Option.isSome_iff_exists.mp (exited p)
    simp [Proc.exitStatus_eq_some.mp h, Proc.IsInside]
  · simpa [Proc.exitStatus_eq_some.mp h, ProcOk] using kept.procs p

end Steps

end StreamDataPipeline.Foundations.LockedFile
