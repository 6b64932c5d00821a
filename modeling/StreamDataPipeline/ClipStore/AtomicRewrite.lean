/- Failures and kills in the middle of a compaction (db_rewrite_compact). -/

import StreamDataPipeline.Foundations.OutputStream
import StreamDataPipeline.Foundations.Schedule
import StreamDataPipeline.ClipStore.Compaction

/-!
Every call of the function is a step with an answer from the system, and stdio may hand
part of its buffer to the temporary file in between. A kill is a run that goes no further.
Renaming is atomic, and unlinking succeeds.
-/

set_option autoImplicit false
set_option relaxedAutoImplicit false

namespace StreamDataPipeline.ClipStore.AtomicRewrite

open Foundations Foundations.ByteString Foundations.OutputStream Lib.Libpipeline
open Format BucketIndex Query Compaction

/-- The call that comes next. `append left` is the writing loop in front of the buckets
`left`, `discard` the `fclose` on the way out after a failure. -/
inductive Pc
  | load
  | tmpPath (rows : RowIndex)
  | openTmp (rows : RowIndex)
  | fdopen (rows : RowIndex)
  | append (left : List (Option Row))
  | fflush
  | fsync
  | fclose
  | rename
  | discard
  | unlink
  | returned (status : Int)
  deriving DecidableEq

/-- How a call ends, or `wrote n`: it has written up to `n` bytes of the buffer and goes on. -/
inductive Reply
  | done
  | failed
  | wrote (n : Nat)
  deriving DecidableEq

/-- `db` is what the database path names, `tmp` what the temporary path names. -/
structure Rewrite where
  pc : Pc
  db : Bytes
  tmp : Option (Stream UInt8)
  created : Bool
  renamed : Bool
  deriving DecidableEq

/-- A temporary file of an earlier run may have been left behind. -/
def rewriteStart (file : Bytes) (stale : Option Bytes) : Rewrite where
  pc := .load
  db := file
  tmp := stale.map fun bytes => ⟨bytes, []⟩
  created := false
  renamed := false

/-- The turn of the writing loop for a row: rows that are not live are passed over. -/
def appendStep (z : Zlib) (now : Int) (s : Rewrite) (row : Row) (left : List (Option Row)) :
    Reply → Option Rewrite
  | .done =>
      if !rowIsLive row now then some { s with pc := .append left }
      else match rowLine z row with
        | some line => some { s with pc := .append left, tmp := s.tmp.map (·.put line) }
        | none => some { s with pc := .discard }
  | .failed => if !rowIsLive row now then none else some { s with pc := .discard }
  | .wrote n => some { s with tmp := s.tmp.map (·.spill n) }

def rewriteStep (z : Zlib) (dbPath : Bytes) (now : Int) (s : Rewrite) (reply : Reply) :
    Option Rewrite :=
  match s.pc, reply with
  | .load, .done => (loadLatestRows z s.db).map fun rows => { s with pc := .tmpPath rows }
  | .load, .failed => some { s with pc := .returned (-1) }
  | .tmpPath rows, .done =>
      if pathMax ≤ (dbPath ++ ascii ".tmp").length then some { s with pc := .returned (-1) }
      else some { s with pc := .openTmp rows }
  | .openTmp rows, .done =>
      some { s with pc := .fdopen rows, tmp := some ⟨[], []⟩, created := true }
  | .openTmp _, .failed => some { s with pc := .returned (-1) }
  | .fdopen rows, .done => some { s with pc := .append rows.buckets }
  | .fdopen _, .failed => some { s with pc := .unlink }
  | .append [], .done => some { s with pc := .fflush }
  | .append (none :: left), .done => some { s with pc := .append left }
  | .append (some row :: left), reply => appendStep z now s row left reply
  | .fflush, .done => some { s with pc := .fsync, tmp := s.tmp.map Stream.flush }
  | .fflush, .failed => some { s with pc := .discard }
  | .fflush, .wrote n => some { s with tmp := s.tmp.map (·.spill n) }
  | .fsync, .done => some { s with pc := .fclose }
  | .fsync, .failed => some { s with pc := .discard }
  -- the answer of `fclose` is not looked at
  | .fclose, .done => some { s with pc := .rename, tmp := s.tmp.map Stream.flush }
  | .fclose, .failed => some { s with pc := .rename }
  | .fclose, .wrote n => some { s with tmp := s.tmp.map (·.spill n) }
  | .rename, .done => s.tmp.map fun tmp =>
      { s with pc := .returned 0, db := tmp.file, tmp := none, renamed := true }
  | .rename, .failed => some { s with pc := .unlink }
  | .discard, .done => some { s with pc := .unlink, tmp := s.tmp.map Stream.flush }
  | .discard, .failed => some { s with pc := .unlink }
  | .discard, .wrote n => some { s with tmp := s.tmp.map (·.spill n) }
  | .unlink, .done => some { s with pc := .returned (-1), tmp := none }
  | _, _ => none

/-- The database path still names the old file. -/
def Untouched (file : Bytes) (s : Rewrite) : Prop := s.db = file ∧ s.renamed = false

section Invariant

variable (z : Zlib) (file dbPath : Bytes) (now : Int)

/-- What is known at each call. Until the rename, the temporary file and its buffer hold the
rows in front of the loop, and then the compacted file. -/
def Known (s : Rewrite) : Prop :=
  match s.pc with
  | .load => Untouched file s ∧ s.created = false
  | .tmpPath rows => Untouched file s ∧ s.created = false ∧ loadLatestRows z file = some rows
  | .openTmp rows => Untouched file s ∧ s.created = false ∧
      rows.buckets.foldlM (appendLiveRow z now) [] = dbRewriteCompact z file dbPath now
  | .fdopen rows => Untouched file s ∧ s.tmp = some ⟨[], []⟩ ∧
      rows.buckets.foldlM (appendLiveRow z now) [] = dbRewriteCompact z file dbPath now
  | .append left => Untouched file s ∧ ∃ tmp, s.tmp = some tmp ∧
      left.foldlM (appendLiveRow z now) tmp.content = dbRewriteCompact z file dbPath now
  | .fflush => Untouched file s ∧ ∃ tmp, s.tmp = some tmp ∧
      dbRewriteCompact z file dbPath now = some tmp.content
  | .fsync | .fclose | .rename => Untouched file s ∧ ∃ out, s.tmp = some ⟨out, []⟩ ∧
      dbRewriteCompact z file dbPath now = some out
  | .discard | .unlink => Untouched file s
  | .returned status =>
      status = 0 ∧ s.renamed = true ∧ dbRewriteCompact z file dbPath now = some s.db ∨
        status = -1 ∧ Untouched file s ∧ (s.created = true → s.tmp = none)

theorem appendStep_known {s s' : Rewrite} {row : Row} {left : List (Option Row)} {reply : Reply}
    (pc : s.pc = .append (some row :: left)) (known : Known z file dbPath now s)
    (stepped : appendStep z now s row left reply = some s') : Known z file dbPath now s' := by
  simp only [Known, pc] at known
  obtain ⟨untouched, tmp, held, rest⟩ := known
  rw [List.foldlM_cons, appendLiveRow, appendDbRow_line] at rest
  cases reply with
  | wrote n =>
      cases stepped
      simp only [Known, pc]
      refine ⟨untouched, tmp.spill n, by rw [held, Option.map_some], ?_⟩
      rw [List.foldlM_cons, appendLiveRow, appendDbRow_line, Stream.content_spill]
      exact rest
  | failed =>
      rw [appendStep] at stepped
      split_ifs at stepped
      cases stepped
      exact untouched
  | done =>
      rw [appendStep] at stepped
      split_ifs at stepped rest with dead
      · cases stepped
        exact ⟨untouched, tmp, held, rest⟩
      · cases line : rowLine z row with
        | none =>
            rw [line] at stepped
            cases stepped
            exact untouched
        | some text =>
            rw [line] at stepped rest
            cases stepped
            refine ⟨untouched, tmp.put text, by rw [held, Option.map_some], ?_⟩
            rw [Stream.content_put]
            exact rest

theorem wrote_known {s s' : Rewrite} {n : Nat} (known : Known z file dbPath now s)
    (stepped : rewriteStep z dbPath now s (.wrote n) = some s') : Known z file dbPath now s' := by
  cases pc : s.pc with
  | append left =>
      rcases left with _ | ⟨_ | row, left⟩
      · simp [rewriteStep, pc] at stepped
      · simp [rewriteStep, pc] at stepped
      · have turn : appendStep z now s row left (.wrote n) = some s' := by
          simpa only [rewriteStep, pc] using stepped
        exact appendStep_known z file dbPath now pc known turn
  | fflush =>
      simp only [Known, pc] at known
      obtain ⟨untouched, tmp, held, whole⟩ := known
      simp only [rewriteStep, pc] at stepped
      cases stepped
      simp only [Known]
      exact ⟨untouched, tmp.spill n, by rw [held]; rfl, by rw [Stream.content_spill, whole]⟩
  | fclose =>
      simp only [Known, pc] at known
      obtain ⟨untouched, out, held, whole⟩ := known
      simp only [rewriteStep, pc] at stepped
      cases stepped
      simp only [Known]
      exact ⟨untouched, out, by simp [held, Stream.spill], whole⟩
  | discard =>
      simp only [Known, pc] at known
      simp only [rewriteStep, pc] at stepped
      cases stepped
      exact known
  | _ => simp [rewriteStep, pc] at stepped

theorem failed_known {s s' : Rewrite} (known : Known z file dbPath now s)
    (stepped : rewriteStep z dbPath now s .failed = some s') : Known z file dbPath now s' := by
  cases pc : s.pc with
  | load =>
      simp only [Known, pc] at known
      obtain ⟨untouched, fresh⟩ := known
      simp only [rewriteStep, pc] at stepped
      cases stepped
      exact .inr ⟨rfl, untouched, fun made => by simp [fresh] at made⟩
  | openTmp rows =>
      simp only [Known, pc] at known
      obtain ⟨untouched, fresh, -⟩ := known
      simp only [rewriteStep, pc] at stepped
      cases stepped
      exact .inr ⟨rfl, untouched, fun made => by simp [fresh] at made⟩
  | append left =>
      rcases left with _ | ⟨_ | row, left⟩
      · simp [rewriteStep, pc] at stepped
      · simp [rewriteStep, pc] at stepped
      · have turn : appendStep z now s row left .failed = some s' := by
          simpa only [rewriteStep, pc] using stepped
        exact appendStep_known z file dbPath now pc known turn
  | fclose =>
      -- the only failure that is passed over
      simp only [Known, pc] at known
      obtain ⟨untouched, out, held, whole⟩ := known
      simp only [rewriteStep, pc] at stepped
      cases stepped
      exact ⟨untouched, out, held, whole⟩
  | discard =>
      simp only [Known, pc] at known
      simp only [rewriteStep, pc] at stepped
      cases stepped
      exact known
  | fdopen _ | fflush | fsync | rename =>
      simp only [Known, pc] at known
      obtain ⟨untouched, -⟩ := known
      simp only [rewriteStep, pc] at stepped
      cases stepped
      exact untouched
  | _ => simp [rewriteStep, pc] at stepped

theorem done_known {s s' : Rewrite} (known : Known z file dbPath now s)
    (stepped : rewriteStep z dbPath now s .done = some s') : Known z file dbPath now s' := by
  cases pc : s.pc with
  | load =>
      simp only [Known, pc] at known
      obtain ⟨⟨same, unrenamed⟩, fresh⟩ := known
      simp only [rewriteStep, pc] at stepped
      obtain ⟨rows, loaded, rfl⟩ := Option.map_eq_some_iff.mp stepped
      exact ⟨⟨same, unrenamed⟩, fresh, same ▸ loaded⟩
  | tmpPath rows =>
      simp only [Known, pc] at known
      obtain ⟨untouched, fresh, loaded⟩ := known
      simp only [rewriteStep, pc] at stepped
      split_ifs at stepped with long
      · cases stepped
        exact .inr ⟨rfl, untouched, fun made => by simp [fresh] at made⟩
      · cases stepped
        refine ⟨untouched, fresh, ?_⟩
        simp only [dbRewriteCompact, loaded, Option.bind_eq_bind, Option.bind_some, if_neg long]
  | openTmp rows =>
      simp only [Known, pc] at known
      obtain ⟨untouched, -, rest⟩ := known
      simp only [rewriteStep, pc] at stepped
      cases stepped
      exact ⟨untouched, rfl, rest⟩
  | fdopen rows =>
      simp only [Known, pc] at known
      obtain ⟨untouched, held, rest⟩ := known
      simp only [rewriteStep, pc] at stepped
      cases stepped
      exact ⟨untouched, _, held, rest⟩
  | append left =>
      rcases left with _ | ⟨_ | row, left⟩
      · simp only [Known, pc, List.foldlM_nil] at known
        obtain ⟨untouched, tmp, held, rest⟩ := known
        simp only [rewriteStep, pc] at stepped
        cases stepped
        exact ⟨untouched, tmp, held, rest.symm⟩
      · simp only [Known, pc] at known
        obtain ⟨untouched, tmp, held, rest⟩ := known
        simp only [rewriteStep, pc] at stepped
        cases stepped
        exact ⟨untouched, tmp, held, rest⟩
      · have turn : appendStep z now s row left .done = some s' := by
          simpa only [rewriteStep, pc] using stepped
        exact appendStep_known z file dbPath now pc known turn
  | fflush =>
      simp only [Known, pc] at known
      obtain ⟨untouched, tmp, held, whole⟩ := known
      simp only [rewriteStep, pc] at stepped
      cases stepped
      exact ⟨untouched, tmp.content, by rw [held]; rfl, whole⟩
  | fclose =>
      simp only [Known, pc] at known
      obtain ⟨untouched, out, held, whole⟩ := known
      simp only [rewriteStep, pc] at stepped
      cases stepped
      exact ⟨untouched, out, by simp [held, Stream.flush, Stream.content], whole⟩
  | rename =>
      simp only [Known, pc] at known
      obtain ⟨untouched, out, held, whole⟩ := known
      simp only [rewriteStep, pc, held, Option.map_some] at stepped
      cases stepped
      exact .inl ⟨rfl, rfl, whole⟩
  | fsync | discard =>
      simp only [Known, pc] at known
      simp only [rewriteStep, pc] at stepped
      cases stepped
      exact known
  | unlink =>
      simp only [Known, pc] at known
      simp only [rewriteStep, pc] at stepped
      cases stepped
      exact .inr ⟨rfl, known, fun _ => rfl⟩
  | returned status => simp [rewriteStep, pc] at stepped

theorem step_known {s s' : Rewrite} {reply : Reply} (known : Known z file dbPath now s)
    (stepped : rewriteStep z dbPath now s reply = some s') : Known z file dbPath now s' := by
  cases reply with
  | done => exact done_known z file dbPath now known stepped
  | failed => exact failed_known z file dbPath now known stepped
  | wrote n => exact wrote_known z file dbPath now known stepped

/-- A compaction that has not returned can always take its next call to the end. -/
theorem step_defined {s : Rewrite} (known : Known z file dbPath now s)
    (running : ∀ status, s.pc ≠ .returned status) :
    (rewriteStep z dbPath now s .done).isSome = true := by
  cases pc : s.pc with
  | load =>
      obtain ⟨index, loaded, -⟩ := loadLatestRows_holds z s.db
      simp [rewriteStep, pc, loaded]
  | tmpPath rows =>
      simp only [rewriteStep, pc]
      split_ifs <;> rfl
  | append left =>
      rcases left with _ | ⟨_ | row, left⟩
      · simp [rewriteStep, pc]
      · simp [rewriteStep, pc]
      · simp only [rewriteStep, pc, appendStep]
        split_ifs
        · rfl
        · cases rowLine z row <;> rfl
  | rename =>
      simp only [Known, pc] at known
      obtain ⟨-, out, held, -⟩ := known
      simp [rewriteStep, pc, held]
  | returned status => exact absurd pc (running status)
  | _ => simp [rewriteStep, pc]

end Invariant

/-- The database path names the old file until the rename and the whole compacted file from then
on, the function returns 0 exactly when it has renamed, and it leaves no temporary file of its
own behind. -/
structure AllOrNothing (z : Zlib) (file dbPath : Bytes) (now : Int) (s : Rewrite) : Prop where
  unrenamed : s.renamed = false → s.db = file
  renamed : s.renamed = true → dbRewriteCompact z file dbPath now = some s.db
  returned : ∀ status, s.pc = .returned status →
    (status = 0 ∨ status = -1) ∧ (status = 0 ↔ s.renamed = true)
  cleaned : s.pc = .returned (-1) → s.created = true → s.tmp = none

theorem Known.allOrNothing {z : Zlib} {file dbPath : Bytes} {now : Int} {s : Rewrite}
    (known : Known z file dbPath now s) : AllOrNothing z file dbPath now s := by
  by_cases ended : ∃ status, s.pc = .returned status
  · obtain ⟨status, pc⟩ := ended
    simp only [Known, pc] at known
    rcases known with ⟨rfl, renamed, whole⟩ | ⟨rfl, ⟨same, unrenamed⟩, cleaned⟩
    · refine ⟨fun h => by simp [renamed] at h, fun _ => whole, ?_, ?_⟩
      · rintro _ other
        rw [pc] at other
        cases other
        exact ⟨.inl rfl, iff_of_true rfl renamed⟩
      · intro other
        rw [pc] at other
        cases other
    · refine ⟨fun _ => same, fun h => by simp [unrenamed] at h, ?_, fun _ => cleaned⟩
      rintro _ other
      rw [pc] at other
      cases other
      exact ⟨.inr rfl, iff_of_false (by decide) (by simp [unrenamed])⟩
  · have untouched : Untouched file s := by
      cases pc : s.pc with
      | returned status => exact absurd ⟨status, pc⟩ ended
      | discard => simpa only [Known, pc] using known
      | unlink => simpa only [Known, pc] using known
      | _ =>
          simp only [Known, pc] at known
          exact known.1
    refine ⟨fun _ => untouched.1, fun h => by simp [untouched.2] at h, ?_, ?_⟩
    · intro status pc
      exact absurd ⟨status, pc⟩ ended
    · intro pc
      exact absurd ⟨-1, pc⟩ ended

/-- Wherever a compaction fails or is killed, it has replaced the whole database file or
nothing. Until it has returned, its next call may succeed. -/
theorem rewrite_all_or_nothing (z : Zlib) (file dbPath : Bytes) (now : Int)
    (stale : Option Bytes) (replies : List Reply) {s : Rewrite}
    (ran : Schedule.run (rewriteStep z dbPath now) (rewriteStart file stale) replies = some s) :
    AllOrNothing z file dbPath now s ∧
      ((∀ status, s.pc ≠ .returned status) →
        (rewriteStep z dbPath now s .done).isSome = true) := by
  have start : Known z file dbPath now (rewriteStart file stale) := ⟨⟨rfl, rfl⟩, rfl⟩
  have known := Schedule.run_preserves (Known z file dbPath now)
    (fun known stepped => step_known z file dbPath now known stepped) start ran
  exact ⟨known.allOrNothing, step_defined z file dbPath now known⟩

/-- A compaction that is killed in the middle of its flush. -/
theorem rewrite_all_or_nothing_killed :
    ∃ s, Schedule.run (rewriteStep storedZlib (ascii "db") 10) (rewriteStart mixedDb none)
        (List.replicate 69 .done ++ [.wrote 3]) = some s ∧ s.pc = .fflush ∧
      AllOrNothing storedZlib mixedDb (ascii "db") 10 s := by
  have ran : ((Schedule.run (rewriteStep storedZlib (ascii "db") 10) (rewriteStart mixedDb none)
      (List.replicate 69 .done ++ [.wrote 3])).map Rewrite.pc) = some .fflush := by
    decide +kernel
  obtain ⟨s, reached, pc⟩ := Option.map_eq_some_iff.mp ran
  exact ⟨s, reached, pc, (rewrite_all_or_nothing _ _ _ _ none _ reached).1⟩

end StreamDataPipeline.ClipStore.AtomicRewrite
