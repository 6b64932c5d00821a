/- The descriptors that the children of the dispatcher hold (pd_spawn.c, pd_pipeline.c). -/

import StreamDataPipeline.Foundations.DescriptorTable

set_option autoImplicit false
set_option relaxedAutoImplicit false

namespace StreamDataPipeline.PipelineDispatcher.Topology

open Foundations

universe u

inductive PipeId
  | pipe1
  | pipe2
  deriving DecidableEq

inductive PipeEnd
  | read (pipe : PipeId)
  | write (pipe : PipeId)
  deriving DecidableEq

/-- What a descriptor refers to: a file that was open at the start, or an end of a pipe. -/
inductive OpenFile (ι : Type u)
  | inherited (file : ι)
  | pipeEnd (e : PipeEnd)

variable {ι : Type u}

abbrev Table (ι : Type u) := DescriptorTable (OpenFile ι)

def stdinFileno : Nat := 0
def stdoutFileno : Nat := 1

def closeListed (t : Table ι) (fd : Int) : Table ι := if 0 ≤ fd then t.close fd.toNat else t

/-- `fd` at a standard number, unless it is that number; `none` where `dup2` fails. -/
def redirect (t : Table ι) (fd standard : Nat) : Option (Table ι) :=
  if fd ≠ standard then t.dup2 fd standard else some t

/-- The child of `pd_spawn_child` up to `execv`; `none` where it exits with 126. -/
def pdSpawnChild (t : Table ι) (stdinFd stdoutFd : Nat) (closeFds : List Int) :
    Option (Table ι) := do
  let t ← redirect t stdinFd stdinFileno
  let t ← redirect t stdoutFd stdoutFileno
  return closeFds.foldl closeListed t

/-- The tables with which the children reach `execv`, and that of the dispatcher then. -/
structure Processes (ι : Type u) where
  streamMerge : Option (Table ι)
  logParse : Option (Table ι)
  clipStore : Option (Table ι)
  dispatcher : Table ι

/-- `pd_pipeline_run` up to `close_pipe_fds`, where no `pipe` and no `fork` fails. -/
def pdPipelineRun (start : DescriptorTable ι) : Processes ι :=
  let (pipe1, t) := (start.map .inherited).pipe (.pipeEnd (.read .pipe1)) (.pipeEnd (.write .pipe1))
  let (pipe2, t) := t.pipe (.pipeEnd (.read .pipe2)) (.pipeEnd (.write .pipe2))
  let allPipes := [pipe1.1, pipe1.2, pipe2.1, pipe2.2].map Int.ofNat
  { streamMerge := pdSpawnChild t stdinFileno pipe1.2 allPipes
    logParse := pdSpawnChild t pipe1.1 pipe2.2 allPipes
    clipStore := pdSpawnChild t pipe2.1 stdoutFileno allPipes
    dispatcher := allPipes.foldl closeListed t }

/-- The pipe ends in the table are the listed ones, at the listed numbers. -/
def HoldsEnds (t : Table ι) (ends : List (Nat × PipeEnd)) : Prop :=
  ∀ n e, t.entry n = some (.pipeEnd e) ↔ (n, e) ∈ ends

/-- Each child that reaches `execv` holds the ends of its own sides, and no others. -/
structure Connected (p : Processes ι) : Prop where
  streamMerge : ∀ t ∈ p.streamMerge, HoldsEnds t [(stdoutFileno, .write .pipe1)]
  logParse : ∀ t ∈ p.logParse,
    HoldsEnds t [(stdinFileno, .read .pipe1), (stdoutFileno, .write .pipe2)]
  clipStore : ∀ t ∈ p.clipStore, HoldsEnds t [(stdinFileno, .read .pipe2)]

/-- The four lowest numbers that were free are the ends of the pipes. -/
structure Opened (start : DescriptorTable ι) (t : Table ι) (r₁ w₁ r₂ w₂ : Nat) : Prop where
  free : start.entry r₁ = none
  lowest : ∀ n, n < r₁ → start.entry n ≠ none
  ascending : r₁ < w₁ ∧ w₁ < r₂ ∧ r₂ < w₂
  read₁ : t.entry r₁ = some (.pipeEnd (.read .pipe1))
  write₁ : t.entry w₁ = some (.pipeEnd (.write .pipe1))
  read₂ : t.entry r₂ = some (.pipeEnd (.read .pipe2))
  write₂ : t.entry w₂ = some (.pipeEnd (.write .pipe2))
  others : ∀ n, n ∉ [r₁, w₁, r₂, w₂] → t.entry n = (start.entry n).map .inherited

theorem pdPipelineRun_opened (start : DescriptorTable ι) :
    ∃ t r₁ w₁ r₂ w₂, Opened start t r₁ w₁ r₂ w₂ ∧
      pdPipelineRun start =
        { streamMerge := pdSpawnChild t stdinFileno w₁ ([r₁, w₁, r₂, w₂].map Int.ofNat)
          logParse := pdSpawnChild t r₁ w₂ ([r₁, w₁, r₂, w₂].map Int.ofNat)
          clipStore := pdSpawnChild t r₂ stdoutFileno ([r₁, w₁, r₂, w₂].map Int.ofNat)
          dispatcher := ([r₁, w₁, r₂, w₂].map Int.ofNat).foldl closeListed t } := by
  obtain ⟨r₁, w₁, t₁, opened₁, below₁, ⟨free₁, lowest₁⟩, entries₁, above₁⟩ :=
    (start.map OpenFile.inherited).pipe_spec (.pipeEnd (.read .pipe1)) (.pipeEnd (.write .pipe1))
  obtain ⟨r₂, w₂, t₂, opened₂, below₂, ⟨free₂, -⟩, entries₂, -⟩ :=
    t₁.pipe_spec (.pipeEnd (.read .pipe2)) (.pipeEnd (.write .pipe2))
  have between : w₁ < r₂ := above₁ r₂ free₂
  refine ⟨t₂, r₁, w₁, r₂, w₂, ⟨?_, ?_, ⟨below₁, between, below₂⟩, ?_, ?_, ?_, ?_, ?_⟩, ?_⟩
  · simpa using free₁
  · intro n lower
    simpa using lowest₁ n lower
  · have other₂ : r₁ ≠ w₂ := by omega
    have other : r₁ ≠ r₂ := by omega
    simp [entries₂, entries₁, other₂, other, Nat.ne_of_lt below₁]
  · have other : w₁ ≠ w₂ := by omega
    simp [entries₂, entries₁, other, Nat.ne_of_lt between]
  · simp [entries₂, Nat.ne_of_lt below₂]
  · simp [entries₂]
  · intro n other
    simp only [List.mem_cons, List.not_mem_nil, or_false, not_or] at other
    simp [entries₂, entries₁, other]
  · simp only [pdPipelineRun, opened₁, opened₂]

theorem foldl_closeListed (t : Table ι) (fds : List Nat) :
    (fds.map Int.ofNat).foldl closeListed t = fds.foldl DescriptorTable.close t := by
  rw [List.foldl_map]
  rfl

theorem redirect_entry {t : Table ι} {fd standard : Nat}
    (usable : t.entry fd ≠ none ∨ fd = standard) :
    ∃ t', redirect t fd standard = some t' ∧
      ∀ n, t'.entry n = if n = standard then t.entry fd else t.entry n := by
  by_cases same : fd = standard
  · refine ⟨t, if_neg (not_not.mpr same), fun n => ?_⟩
    by_cases here : n = standard <;> simp [here, same]
  · obtain ⟨file, taken⟩ := Option.ne_none_iff_exists'.mp (usable.resolve_right same)
    refine ⟨t.place standard file, (if_pos same).trans (DescriptorTable.dup2_of_open taken), ?_⟩
    intro n
    by_cases here : n = standard <;> simp [here, taken, Function.update_of_ne]

/-- A child that is given open descriptors reaches `execv`, and finds them at 0 and 1 unless it
closes these. -/
theorem pdSpawnChild_entry {t : Table ι} {stdinFd stdoutFd : Nat} (fds : List Nat)
    (input : t.entry stdinFd ≠ none ∨ stdinFd = stdinFileno)
    (output : t.entry stdoutFd ≠ none ∨ stdoutFd = stdoutFileno) (apart : stdoutFd ≠ stdinFileno) :
    ∃ t', pdSpawnChild t stdinFd stdoutFd (fds.map Int.ofNat) = some t' ∧
      ∀ n, t'.entry n =
        if n ∈ fds then none
        else if n = stdoutFileno then t.entry stdoutFd
        else if n = stdinFileno then t.entry stdinFd
        else t.entry n := by
  obtain ⟨t₀, first, entries₀⟩ := redirect_entry input
  have out₀ : t₀.entry stdoutFd = t.entry stdoutFd := by rw [entries₀, if_neg apart]
  rw [← out₀] at output
  obtain ⟨t₁, second, entries₁⟩ := redirect_entry output
  refine ⟨fds.foldl DescriptorTable.close t₁, ?_, fun n => ?_⟩
  · rw [pdSpawnChild, first, Option.bind_eq_bind, Option.bind_some, second]
    exact congrArg some (foldl_closeListed t₁ fds)
  · rw [DescriptorTable.entry_foldl_close, entries₁, out₀, entries₀]

section Started

variable {start : DescriptorTable ι} {t : Table ι} {r₁ w₁ r₂ w₂ : Nat}

theorem Opened.not_pipeEnd (opened : Opened start t r₁ w₁ r₂ w₂) {n : Nat}
    (other : n ∉ [r₁, w₁, r₂, w₂]) (e : PipeEnd) : t.entry n ≠ some (.pipeEnd e) := by
  rw [opened.others n other]
  cases start.entry n <;> simp

theorem Opened.holdsEnds (opened : Opened start t r₁ w₁ r₂ w₂) (standard : stdoutFileno < r₁)
    {t' : Table ι} {stdinFd stdoutFd : Nat}
    (entries : ∀ n, t'.entry n =
      if n ∈ [r₁, w₁, r₂, w₂] then none
      else if n = stdoutFileno then t.entry stdoutFd
      else if n = stdinFileno then t.entry stdinFd
      else t.entry n) (n : Nat) (e : PipeEnd) :
    t'.entry n = some (.pipeEnd e) ↔
      (n = stdoutFileno ∧ t.entry stdoutFd = some (.pipeEnd e)) ∨
        (n = stdinFileno ∧ t.entry stdinFd = some (.pipeEnd e)) := by
  have ascending := opened.ascending
  have above : ∀ m ∈ [r₁, w₁, r₂, w₂], m ≠ stdinFileno ∧ m ≠ stdoutFileno := by
    simp only [stdoutFileno] at standard
    simp only [List.mem_cons, List.not_mem_nil, or_false, stdinFileno, stdoutFileno]
    omega
  rw [entries n]
  by_cases listed : n ∈ [r₁, w₁, r₂, w₂]
  · obtain ⟨noInput, noOutput⟩ := above n listed
    simp only [if_pos listed, noInput, noOutput, false_and, or_false, reduceCtorEq]
  · rw [if_neg listed]
    by_cases out : n = stdoutFileno
    · simp [out, stdoutFileno, stdinFileno]
    · by_cases inp : n = stdinFileno
      · simp [inp, stdoutFileno, stdinFileno]
      · simp [out, inp, opened.not_pipeEnd listed e]

/-- The three children reach `execv`, with what they were given at 0 and 1 unless they close it. -/
theorem Opened.children (opened : Opened start t r₁ w₁ r₂ w₂) :
    ∃ merge parse store,
      pdSpawnChild t stdinFileno w₁ ([r₁, w₁, r₂, w₂].map Int.ofNat) = some merge ∧
      pdSpawnChild t r₁ w₂ ([r₁, w₁, r₂, w₂].map Int.ofNat) = some parse ∧
      pdSpawnChild t r₂ stdoutFileno ([r₁, w₁, r₂, w₂].map Int.ofNat) = some store ∧
      ∀ n,
        (merge.entry n =
          if n ∈ [r₁, w₁, r₂, w₂] then none
          else if n = stdoutFileno then t.entry w₁
          else if n = stdinFileno then t.entry stdinFileno else t.entry n) ∧
        (parse.entry n =
          if n ∈ [r₁, w₁, r₂, w₂] then none
          else if n = stdoutFileno then t.entry w₂
          else if n = stdinFileno then t.entry r₁ else t.entry n) ∧
        (store.entry n =
          if n ∈ [r₁, w₁, r₂, w₂] then none
          else if n = stdoutFileno then t.entry stdoutFileno
          else if n = stdinFileno then t.entry r₂ else t.entry n) := by
  obtain ⟨below, between, above⟩ := opened.ascending
  have write₁ : t.entry w₁ ≠ none := by simp [opened.write₁]
  have write₂ : t.entry w₂ ≠ none := by simp [opened.write₂]
  have read₁ : t.entry r₁ ≠ none := by simp [opened.read₁]
  have read₂ : t.entry r₂ ≠ none := by simp [opened.read₂]
  have apart₁ : w₁ ≠ stdinFileno := Nat.ne_of_gt (Nat.zero_lt_of_lt below)
  have apart₂ : w₂ ≠ stdinFileno := Nat.ne_of_gt (Nat.zero_lt_of_lt above)
  obtain ⟨merge, mergeRun, mergeEntry⟩ :=
    pdSpawnChild_entry [r₁, w₁, r₂, w₂] (.inr rfl) (.inl write₁) apart₁
  obtain ⟨parse, parseRun, parseEntry⟩ :=
    pdSpawnChild_entry [r₁, w₁, r₂, w₂] (.inl read₁) (.inl write₂) apart₂
  obtain ⟨store, storeRun, storeEntry⟩ :=
    pdSpawnChild_entry [r₁, w₁, r₂, w₂] (.inl read₂) (.inr rfl) (by decide)
  exact ⟨merge, parse, store, mergeRun, parseRun, storeRun,
    fun n => ⟨mergeEntry n, parseEntry n, storeEntry n⟩⟩

theorem Opened.dispatcher (opened : Opened start t r₁ w₁ r₂ w₂) :
    HoldsEnds (([r₁, w₁, r₂, w₂].map Int.ofNat).foldl closeListed t) [] := by
  intro n e
  rw [foldl_closeListed, DescriptorTable.entry_foldl_close]
  by_cases listed : n ∈ [r₁, w₁, r₂, w₂]
  · simp [listed]
  · simp [listed, opened.not_pipeEnd listed e]

theorem Opened.standard_lt_iff (opened : Opened start t r₁ w₁ r₂ w₂) :
    stdoutFileno < r₁ ↔
      start.entry stdinFileno ≠ none ∧ start.entry stdoutFileno ≠ none := by
  constructor
  · intro above
    exact ⟨opened.lowest _ (Nat.zero_lt_of_lt above), opened.lowest _ above⟩
  · rintro ⟨input, output⟩
    have noInput : r₁ ≠ stdinFileno := by
      rintro rfl
      exact input opened.free
    have noOutput : r₁ ≠ stdoutFileno := by
      rintro rfl
      exact output opened.free
    simp only [stdinFileno, stdoutFileno] at noInput noOutput ⊢
    omega

end Started

/-- Every child reaches `execv`, and the pipes connect the children as they should exactly when
descriptors 0 and 1 are open at the start. -/
theorem topology_connected_iff (start : DescriptorTable ι) :
    (∃ merge parse store, (pdPipelineRun start).streamMerge = some merge ∧
        (pdPipelineRun start).logParse = some parse ∧
        (pdPipelineRun start).clipStore = some store) ∧
      HoldsEnds (pdPipelineRun start).dispatcher [] ∧
      (Connected (pdPipelineRun start) ↔
        start.entry stdinFileno ≠ none ∧ start.entry stdoutFileno ≠ none) := by
  obtain ⟨t, r₁, w₁, r₂, w₂, opened, ran⟩ := pdPipelineRun_opened start
  obtain ⟨merge, parse, store, mergeRun, parseRun, storeRun, entries⟩ := opened.children
  rw [mergeRun, parseRun, storeRun] at ran
  rw [ran]
  refine ⟨⟨merge, parse, store, rfl, rfl, rfl⟩, opened.dispatcher, ?_⟩
  rw [← opened.standard_lt_iff]
  constructor
  · intro connected
    -- an end that took number 0 or 1 is closed in the child that it was meant for
    by_contra low
    have cases : r₁ = stdinFileno ∨ r₁ = stdoutFileno := by
      simp only [stdinFileno, stdoutFileno] at low ⊢
      omega
    rcases cases with closed | closed
    · have held := (connected.logParse parse rfl stdinFileno (.read .pipe1)).mpr (by simp)
      rw [(entries stdinFileno).2.1, if_pos (by simp [closed])] at held
      cases held
    · have held := (connected.streamMerge merge rfl stdoutFileno (.write .pipe1)).mpr (by simp)
      rw [(entries stdoutFileno).1, if_pos (by simp [closed])] at held
      cases held
  · intro standard
    have low : stdinFileno < r₁ := Nat.lt_of_succ_lt standard
    have ascending := opened.ascending
    have noInput : ∀ e, t.entry stdinFileno ≠ some (.pipeEnd e) :=
      opened.not_pipeEnd (by simp; omega)
    have noOutput : ∀ e, t.entry stdoutFileno ≠ some (.pipeEnd e) :=
      opened.not_pipeEnd (by simp; omega)
    constructor
    · rintro _ ⟨⟩ n e
      rw [opened.holdsEnds standard (fun n => (entries n).1) n e]
      simp [opened.write₁, noInput, eq_comm]
    · rintro _ ⟨⟩ n e
      rw [opened.holdsEnds standard (fun n => (entries n).2.1) n e]
      simp [opened.write₂, opened.read₁, eq_comm, or_comm]
    · rintro _ ⟨⟩ n e
      rw [opened.holdsEnds standard (fun n => (entries n).2.2) n e]
      simp [opened.read₂, noOutput, eq_comm]

/-- Descriptors 1 and 2 are open, and the standard input is closed. -/
def inputClosed : DescriptorTable Unit where
  entry n := if n = 1 ∨ n = 2 then some () else none
  bound := 3
  free_beyond n beyond := if_neg (by omega)

/-- `log_parse` closes the read end of its pipe, which is at 0 already. -/
theorem log_parse_without_input :
    ((pdPipelineRun inputClosed).logParse.bind fun t => t.entry stdinFileno) = none ∧
      ¬ ∀ start : DescriptorTable Unit, Connected (pdPipelineRun start) := by
  refine ⟨rfl, fun all => ?_⟩
  have held := ((all inputClosed).logParse _ rfl stdinFileno (.read .pipe1)).mpr (by simp)
  have missing : none = some (OpenFile.pipeEnd (.read .pipe1) : OpenFile Unit) := held
  cases missing

end StreamDataPipeline.PipelineDispatcher.Topology
