/- Writes that fail while rows are stored (clip_store_main, append_db_row). -/

import StreamDataPipeline.Foundations.OutputStream
import StreamDataPipeline.ClipStore.Main

/-!
The rows go through the buffer of the database stream. It is written to the file when a
later append seeks, when it is full, and when the stream is closed; each of these writes
may fail after some bytes.
-/

set_option autoImplicit false
set_option relaxedAutoImplicit false

namespace StreamDataPipeline.ClipStore.WriteFailures

open Foundations.ByteString Foundations.Lines Foundations.OutputStream Foundations.Json
  Lib.JsonlCodec
open Format Main

/-- `fseek` writes the whole buffer, or fails after some bytes of it. -/
inductive SeekAnswer
  | sought
  | failed (written : Nat)
  deriving DecidableEq

/-- `fprintf` hands some bytes to the file; when it fails it may have kept a part of the line. -/
inductive PrintAnswer
  | printed (written : Nat)
  | failed (kept written : Nat)
  deriving DecidableEq

structure AppendAnswer where
  seek : SeekAnswer
  print : PrintAnswer
  deriving DecidableEq

/-- The bytes that the call of `fprintf` has written. -/
def AppendAnswer.written (answer : AppendAnswer) : Nat :=
  match answer.print with
  | .printed n | .failed _ n => n

/-- The flag is false for the return value -1. -/
def appendDbRowThrough (z : Zlib) (s : Stream UInt8) (row : Row) (answer : AppendAnswer) :
    Stream UInt8 × Bool :=
  match answer.seek with
  | .failed n => (s.spill n, false)
  | .sought => match rowLine z row with
    | none => (s.flush, false)
    | some line => match answer.print with
      | .printed n => ((s.flush.put line).spill n, true)
      | .failed kept n => ((s.flush.put (line.take kept)).spill n, false)

/-- The modes that write rows. -/
inductive WriteMode
  | append (stdin : Bytes)
  | set (arg : Bytes)
  | delete (key : Bytes)
  deriving DecidableEq

def WriteMode.clipMode : WriteMode → ClipMode
  | .append stdin => .append stdin
  | .set arg => .set arg
  | .delete key => .delete key

/-- What a run gets from outside: its arguments, the clock, the answers to the successive
appends from number 1 on, and how many bytes the write of the final `fclose` takes. -/
structure WriteRun where
  ttlArg : Bytes
  mode : WriteMode
  clock : Nat → Nat
  answers : Nat → AppendAnswer
  closing : Nat

/-- `rc = append_db_row(..) == 0 ? 0 : 1` -/
def exitStatus : Stream UInt8 × Bool → Stream UInt8 × Nat
  | (s, true) => (s, 0)
  | (s, false) => (s, 1)

/-- The reading loop of append mode: the stream and the exit status. -/
def appendLoopThrough (c : CJson) (z : Zlib) (ttl : Int) (run : WriteRun) :
    List Bytes → Nat → Stream UInt8 → Stream UInt8 × Nat
  | [], _, s => (s, 0)
  | line :: rest, calls, s =>
      match clipRecord c line with
      | none => appendLoopThrough c z ttl run rest calls s
      | some (key, value) =>
          match appendDbRowThrough z s ⟨key, value, expireAt ttl (run.clock calls)⟩
              (run.answers calls) with
          | (s, true) => appendLoopThrough c z ttl run rest (calls + 1) s
          | (s, false) => (s, 1)

/-- The stream in front of the final `fclose`, and the exit status. -/
def storeRows (c : CJson) (z : Zlib) (file : Bytes) (run : WriteRun) : Stream UInt8 × Nat :=
  let opened := Stream.opened file
  match parseTtl run.ttlArg with
  | none => (opened, 1)
  | some ttl => match run.mode with
    | .set arg => match parseSetExpr arg with
      | none => (opened, 1)
      | some (key, value) =>
          if value = [] then (opened, 1)
          else exitStatus (appendDbRowThrough z opened
            ⟨key, value, expireAt ttl (run.clock 0)⟩ (run.answers 1))
    | .delete key =>
        if key = [] then (opened, 1)
        else exitStatus (appendDbRowThrough z opened ⟨key, [], 0⟩ (run.answers 1))
    | .append stdin => appendLoopThrough c z ttl run (pieces lf stdin) 1 opened

/-- The file after the run and the exit status; the result of `fclose` is not looked at. -/
def clipStoreWrite (c : CJson) (z : Zlib) (file : Bytes) (run : WriteRun) : Bytes × Nat :=
  (((storeRows c z file run).1.spill run.closing).file, (storeRows c z file run).2)

def clipRows (c : CJson) (ttl : Int) (clock : Nat → Nat) : List Bytes → Nat → List Row
  | [], _ => []
  | line :: rest, calls => match clipRecord c line with
    | none => clipRows c ttl clock rest calls
    | some (key, value) =>
        ⟨key, value, expireAt ttl (clock calls)⟩ :: clipRows c ttl clock rest (calls + 1)

/-- The rows that the run accepts, in order. -/
def acceptedRows (c : CJson) (run : WriteRun) : List Row :=
  match parseTtl run.ttlArg with
  | none => []
  | some ttl => match run.mode with
    | .set arg => match parseSetExpr arg with
      | none => []
      | some (key, value) =>
          if value = [] then [] else [⟨key, value, expireAt ttl (run.clock 0)⟩]
    | .delete key => if key = [] then [] else [⟨key, [], 0⟩]
    | .append stdin => clipRows c ttl run.clock (pieces lf stdin) 1

def rowsText (z : Zlib) (rows : List Row) : Bytes := rows.flatMap fun row => (rowLine z row).getD []

/-- What the last print leaves in the buffer, after the appends from some number on. -/
def leftInBuffer (z : Zlib) (answers : Nat → AppendAnswer) : List Row → Nat → Nat → Nat
  | [], _, left => left
  | row :: rows, number, _ =>
      leftInBuffer z answers rows (number + 1)
        (((rowLine z row).getD []).length - (answers number).written)

theorem appendDbRowThrough_ok {z : Zlib} {s s' : Stream UInt8} {row : Row}
    {answer : AppendAnswer} (appended : appendDbRowThrough z s row answer = (s', true)) :
    s'.content = s.content ++ (rowLine z row).getD [] ∧
      s'.pending.length = ((rowLine z row).getD []).length - answer.written := by
  unfold appendDbRowThrough at appended
  split at appended
  · cases appended
  · split at appended
    · cases appended
    · rename_i line printable
      split at appended
      · rename_i n printed
        cases appended
        simp [AppendAnswer.written, printed, printable, Stream.spill, Stream.put, Stream.flush,
          Stream.content]
      · cases appended

theorem appendLoopThrough_ok {c : CJson} {z : Zlib} {ttl : Int} {run : WriteRun}
    (lines : List Bytes) {calls : Nat} {s s' : Stream UInt8}
    (returned : appendLoopThrough c z ttl run lines calls s = (s', 0)) :
    s'.content = s.content ++ rowsText z (clipRows c ttl run.clock lines calls) ∧
      s'.pending.length =
        leftInBuffer z run.answers (clipRows c ttl run.clock lines calls) calls
          s.pending.length := by
  induction lines generalizing calls s with
  | nil =>
      cases returned
      simp [clipRows, rowsText, leftInBuffer]
  | cons line rest ih =>
      cases record : clipRecord c line with
      | none =>
          simp only [appendLoopThrough, clipRows, record] at returned ⊢
          exact ih returned
      | some pair =>
          simp only [appendLoopThrough, clipRows, record] at returned ⊢
          generalize appended : appendDbRowThrough z s
            ⟨pair.1, pair.2, expireAt ttl (run.clock calls)⟩ (run.answers calls) = reply at returned
          obtain ⟨next, ok⟩ := reply
          cases ok with
          | false => cases returned
          | true =>
              obtain ⟨content, pending⟩ := appendDbRowThrough_ok appended
              obtain ⟨whole, left⟩ := ih returned
              rw [pending] at left
              refine ⟨?_, left⟩
              rw [whole, content, rowsText, rowsText, List.flatMap_cons, List.append_assoc]

private theorem append_one {z : Zlib} {file : Bytes} {row : Row} {answers : Nat → AppendAnswer}
    (returned : (exitStatus (appendDbRowThrough z (Stream.opened file) row (answers 1))).2 = 0) :
    (exitStatus (appendDbRowThrough z (Stream.opened file) row (answers 1))).1.content =
        file ++ rowsText z [row] ∧
      (exitStatus (appendDbRowThrough z (Stream.opened file) row (answers 1))).1.pending.length =
        leftInBuffer z answers [row] 1 0 := by
  generalize appended :
    appendDbRowThrough z (Stream.opened file) row (answers 1) = reply at returned
  obtain ⟨s, ok⟩ := reply
  cases ok with
  | false => cases returned
  | true =>
      obtain ⟨content, pending⟩ := appendDbRowThrough_ok appended
      rw [Stream.content_opened] at content
      change s.content = _ ∧ s.pending.length = _
      exact ⟨by simpa [rowsText] using content, pending⟩

/-- In front of the `fclose` of a run that returns 0, the file and the buffer together hold the
rows. -/
theorem storeRows_ok {c : CJson} {z : Zlib} {file : Bytes} {run : WriteRun}
    (returned : (storeRows c z file run).2 = 0) :
    (storeRows c z file run).1.content = file ++ rowsText z (acceptedRows c run) ∧
      (storeRows c z file run).1.pending.length =
        leftInBuffer z run.answers (acceptedRows c run) 1 0 := by
  unfold storeRows acceptedRows at *
  cases ttl : parseTtl run.ttlArg with
  | none => simp [ttl] at returned
  | some ttl =>
      simp only [ttl] at returned
      cases mode : run.mode with
      | append stdin =>
          simp only [mode] at returned ⊢
          have stored := appendLoopThrough_ok (pieces lf stdin) (Prod.ext rfl returned)
          rwa [Stream.content_opened] at stored
      | delete key =>
          simp only [mode] at returned ⊢
          split_ifs at returned ⊢
          exact append_one returned
      | set arg =>
          simp only [mode] at returned ⊢
          cases split : parseSetExpr arg with
          | none => simp [split] at returned
          | some pair =>
              simp only [split] at returned ⊢
              split_ifs at returned ⊢
              exact append_one returned

/-- When a run returns 0, the rows that it accepted are completely in the file exactly when the
write of the final `fclose` takes all that the last print left in the buffer. -/
theorem rows_stored_iff (c : CJson) (z : Zlib) (file : Bytes) (run : WriteRun)
    (returned : (clipStoreWrite c z file run).2 = 0) :
    (clipStoreWrite c z file run).1 = file ++ rowsText z (acceptedRows c run) ↔
      leftInBuffer z run.answers (acceptedRows c run) 1 0 ≤ run.closing := by
  obtain ⟨content, pending⟩ := storeRows_ok returned
  rw [← content, ← pending]
  exact Stream.spill_file_eq_content_iff _ run.closing

structure Unfailing (run : WriteRun) : Prop where
  seeks : ∀ number, (run.answers number).seek = .sought
  prints : ∀ number, ∃ n, (run.answers number).print = .printed n

theorem appendDbRowThrough_unfailing {run : WriteRun} (unfailing : Unfailing run) (z : Zlib)
    (s : Stream UInt8) (row : Row) (number : Nat) :
    ∃ s' ok, appendDbRowThrough z s row (run.answers number) = (s', ok) ∧
      (appendDbRow z s.content row.key row.value row.expireAt =
        if ok then some s'.content else none) ∧ (ok = false → s'.content = s.content) := by
  obtain ⟨n, printed⟩ := unfailing.prints number
  rw [appendDbRow_line, appendDbRowThrough, unfailing.seeks number]
  cases line : rowLine z row with
  | none => exact ⟨s.flush, false, rfl, rfl, fun _ => Stream.content_flush s⟩
  | some text =>
      rw [printed]
      exact ⟨_, true, rfl, by simp, by simp⟩

theorem appendLoopThrough_unfailing {run : WriteRun} (unfailing : Unfailing run) (c : CJson)
    (z : Zlib) (ttl : Int) (lines : List Bytes) (calls : Nat) (s : Stream UInt8) :
    ((appendLoopThrough c z ttl run lines calls s).1.content,
        (appendLoopThrough c z ttl run lines calls s).2) =
      appendLoop c z ttl run.clock lines calls s.content := by
  induction lines generalizing calls s with
  | nil => rfl
  | cons line rest ih =>
      cases record : clipRecord c line with
      | none =>
          simp only [appendLoopThrough, appendLoop, record]
          exact ih calls s
      | some pair =>
          obtain ⟨s', ok, appended, plain, kept⟩ := appendDbRowThrough_unfailing unfailing z s
            ⟨pair.1, pair.2, expireAt ttl (run.clock calls)⟩ calls
          simp only [appendLoopThrough, appendLoop, record, appended, plain]
          cases ok with
          | false => exact Prod.ext (kept rfl) rfl
          | true => exact ih (calls + 1) s'

private theorem exitStatus_unfailing {run : WriteRun} (unfailing : Unfailing run) (z : Zlib)
    (file : Bytes) (row : Row) :
    ((exitStatus (appendDbRowThrough z (Stream.opened file) row (run.answers 1))).1.content,
        (⟨[], (exitStatus (appendDbRowThrough z (Stream.opened file) row (run.answers 1))).2⟩ :
          Outcome)) =
      match appendDbRow z file row.key row.value row.expireAt with
      | some file => (file, ⟨[], 0⟩)
      | none => (file, ⟨[], 1⟩) := by
  obtain ⟨s', ok, appended, plain, kept⟩ :=
    appendDbRowThrough_unfailing unfailing z (Stream.opened file) row 1
  rw [Stream.content_opened] at plain kept
  rw [appended, plain]
  cases ok with
  | false => exact Prod.ext (kept rfl) rfl
  | true => rfl

theorem clipStoreWrite_unfailing {run : WriteRun} (unfailing : Unfailing run) (c : CJson)
    (z : Zlib) (file db : Bytes) :
    ((storeRows c z file run).1.content, (⟨[], (storeRows c z file run).2⟩ : Outcome)) =
      clipStoreMain c z file ⟨db, run.ttlArg, run.mode.clipMode, run.clock⟩ := by
  unfold storeRows clipStoreMain
  cases parseTtl run.ttlArg with
  | none => simp
  | some ttl =>
      cases mode : run.mode with
      | append stdin =>
          have loop := appendLoopThrough_unfailing unfailing c z ttl (pieces lf stdin) 1
            (Stream.opened file)
          rw [Stream.content_opened] at loop
          simp only [WriteMode.clipMode, ← loop]
      | delete key =>
          simp only [WriteMode.clipMode]
          split_ifs
          · simp
          · exact exitStatus_unfailing unfailing z file ⟨key, [], 0⟩
      | set arg =>
          simp only [WriteMode.clipMode]
          cases parseSetExpr arg with
          | none => simp
          | some pair =>
              dsimp only
              split_ifs
              · simp
              · exact exitStatus_unfailing unfailing z file
                  ⟨pair.1, pair.2, expireAt ttl (run.clock 0)⟩

/-- Every write succeeds, the one of `fclose` with the whole line. -/
def savedRun : WriteRun where
  ttlArg := ascii "0"
  mode := .set (ascii "k=v")
  clock := fun _ => 1
  answers := fun _ => ⟨.sought, .printed 0⟩
  closing := 100

theorem rows_stored_savedRun :
    (clipStoreWrite (CJson.ofDialect exactDialect) storedZlib [] savedRun).1 =
      [] ++ rowsText storedZlib (acceptedRows (CJson.ofDialect exactDialect) savedRun) :=
  (rows_stored_iff (CJson.ofDialect exactDialect) storedZlib [] savedRun (by decide +kernel)).mpr
    (by decide +kernel)

/-- The disk is full when the stream is closed: the run returns 0 and nothing is stored. -/
theorem exit_zero_without_row :
    (clipStoreWrite (CJson.ofDialect exactDialect) storedZlib []
        { savedRun with closing := 0 }).2 = 0 ∧
      (clipStoreWrite (CJson.ofDialect exactDialect) storedZlib []
        { savedRun with closing := 0 }).1 = [] ∧
      rowsText storedZlib (acceptedRows (CJson.ofDialect exactDialect)
        { savedRun with closing := 0 }) ≠ [] := by
  decide +kernel

end StreamDataPipeline.ClipStore.WriteFailures
