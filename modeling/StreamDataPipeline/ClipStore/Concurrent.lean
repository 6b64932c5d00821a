/- Concurrent runs of clip_store on one database path. -/

import StreamDataPipeline.Foundations.LockedFile
import StreamDataPipeline.ClipStore.Main

/-!
The steps of a run are those that other runs can observe: `open`, `flock`, a read of the
file, the append of a row, the writing of the temporary file, `rename` and `close`.
-/

set_option autoImplicit false
set_option relaxedAutoImplicit false

namespace StreamDataPipeline.ClipStore.Concurrent

open Foundations Foundations.ByteString Foundations.Lines Foundations.Json Foundations.LockedFile
  Lib.JsonlCodec Lib.Libpipeline
open Format BucketIndex Query Compaction Main

/-- What a run that holds the lock still has to do. -/
inductive Task
  | locked (args : Invocation) (ttl : Int)
  | appending (ttl : Int) (clock : Nat → Nat) (lines : List Bytes) (calls : Nat)
  | compacting (buckets : List (Option Row)) (now : Int)
  | rewriting (buckets : List (Option Row)) (now : Int)
  | finished

/-- The one row that `--set` and `--delete` append. -/
def appendOne (z : Zlib) (file key value : Bytes) (expireAt : Int) : Effect Bytes Task :=
  match appendDbRow z file key value expireAt with
  | some file => .write file .finished
  | none => .stop 1

/-- The next action of a run, after the contents of the two files it has open. -/
def taskStep (c : CJson) (z : Zlib) : Task → Bytes → Bytes → Effect Bytes Task
  | .locked args ttl, file, _ => match args.mode with
    | .append stdin => .read (.appending ttl args.clock (pieces lf stdin) 1)
    | .set arg => match parseSetExpr arg with
      | none => .stop 1
      | some (key, value) =>
          if value = [] then .stop 1
          else appendOne z file key value (expireAt ttl (args.clock 0))
    | .delete key => if key = [] then .stop 1 else appendOne z file key [] 0
    | .compact => match loadLatestRows z file with
      | none => .stop 1
      | some rows =>
          if pathMax ≤ (args.db ++ ascii ".tmp").length then .stop 1
          else .read (.compacting rows.buckets (args.clock 0))
    | .get _ | .list | .listPrefix _ => .stop (clipStoreMain c z file args).2.status
  | .appending _ _ [] _, _, _ => .stop 0
  | .appending ttl clock (line :: rest) calls, file, _ => match clipRecord c line with
    | none => .read (.appending ttl clock rest calls)
    | some (key, value) => match appendDbRow z file key value (expireAt ttl (clock calls)) with
      | some file => .write file (.appending ttl clock rest (calls + 1))
      | none => .stop 1
  | .compacting buckets now, _, _ => .openTmp (.rewriting buckets now)
  | .rewriting [] _, _, _ => .rename
  | .rewriting (bucket :: rest) now, _, tmp => match appendLiveRow z now tmp bucket with
    | some tmp => .writeTmp tmp (.rewriting rest now)
    | none => .abandon
  | .finished, _, _ => .stop 0

variable {ι : Type}

/-- The runs of clip_store, each with its own arguments and clock. -/
def clipStoreProgram (c : CJson) (z : Zlib) (args : ι → Invocation) :
    Program ι Bytes Task where
  empty := []
  entry p := (parseTtl (args p).ttlArg).map (Task.locked (args p))
  body := taskStep c z

/-- The file after a run that nobody disturbs, and its exit status. -/
def undisturbed (c : CJson) (z : Zlib) (args : ι → Invocation) (p : ι) (file : Bytes) :
    Bytes × Nat :=
  ((clipStoreMain c z file (args p)).1, (clipStoreMain c z file (args p)).2.status)

/-- The final file answers every lookup as if the runs had taken place one after another. -/
def Serialisable (c : CJson) (z : Zlib) (args : ι → Invocation) (before after : Bytes) : Prop :=
  ∃ order : List ι, order.Nodup ∧ (∀ p, p ∈ order) ∧ ∀ key,
    loadLatestRow z after key =
      loadLatestRow z (serialRun (undisturbed c z args) order before) key

variable {c : CJson} {z : Zlib} {args : ι → Invocation}

/-- The file and the exit status after the append of one row. -/
def appendedOne (z : Zlib) (file key value : Bytes) (expireAt : Int) : Bytes × Nat :=
  match appendDbRow z file key value expireAt with
  | some file => (file, 0)
  | none => (file, 1)

private theorem appendOne_finishes (file key value : Bytes) (expireAt : Int) {s : Task}
    (acts : taskStep c z s file [] = appendOne z file key value expireAt) :
    Finishes (clipStoreProgram c z args) s file none
      (appendedOne z file key value expireAt) := by
  rw [appendedOne]
  cases appended : appendDbRow z file key value expireAt with
  | none => exact .stop (acts.trans (by rw [appendOne, appended]))
  | some file' => exact .write (acts.trans (by rw [appendOne, appended])) (.stop rfl)

private theorem appending_finishes (ttl : Int) (clock : Nat → Nat) (lines : List Bytes)
    (calls : Nat) (file : Bytes) :
    Finishes (clipStoreProgram c z args) (.appending ttl clock lines calls) file none
      (appendLoop c z ttl clock lines calls file) := by
  induction lines generalizing calls file with
  | nil => exact .stop rfl
  | cons line rest ih =>
      cases record : clipRecord c line with
      | none =>
          have acts : taskStep c z (.appending ttl clock (line :: rest) calls) file [] =
              .read (.appending ttl clock rest calls) := by simp [taskStep, record]
          rw [appendLoop, record]
          exact .read acts (ih calls file)
      | some entry =>
          obtain ⟨key, value⟩ := entry
          rw [appendLoop, record]
          cases appended : appendDbRow z file key value (expireAt ttl (clock calls)) with
          | none =>
              have acts : taskStep c z (.appending ttl clock (line :: rest) calls) file [] =
                  .stop 1 := by simp [taskStep, record, appended]
              simp only [appended]
              exact .stop acts
          | some file' =>
              have acts : taskStep c z (.appending ttl clock (line :: rest) calls) file [] =
                  .write file' (.appending ttl clock rest (calls + 1)) := by
                simp [taskStep, record, appended]
              simp only [appended]
              exact .write acts (ih (calls + 1) file')

private theorem rewriting_finishes (buckets : List (Option Row)) (now : Int) (file tmp : Bytes) :
    Finishes (clipStoreProgram c z args) (.rewriting buckets now) file (some tmp)
      (match buckets.foldlM (appendLiveRow z now) tmp with
        | some out => (out, 0)
        | none => (file, 1)) := by
  induction buckets generalizing tmp with
  | nil => exact .rename rfl
  | cons bucket rest ih =>
      rw [List.foldlM_cons]
      cases written : appendLiveRow z now tmp bucket with
      | none =>
          have acts : taskStep c z (.rewriting (bucket :: rest) now) file tmp = .abandon := by
            simp [taskStep, written]
          exact .abandon acts
      | some tmp' =>
          have acts : taskStep c z (.rewriting (bucket :: rest) now) file tmp =
              .writeTmp tmp' (.rewriting rest now) := by simp [taskStep, written]
          exact .writeTmp acts (ih tmp')

section Modes

variable {p : ι} {ttl : Int} (ttlGiven : parseTtl (args p).ttlArg = some ttl) (file : Bytes)

include ttlGiven

private theorem reading_finishes
    (reads : (∃ key, (args p).mode = .get key) ∨ (args p).mode = .list ∨
      ∃ start, (args p).mode = .listPrefix start) :
    Finishes (clipStoreProgram c z args) (.locked (args p) ttl) file none
      (undisturbed c z args p file) := by
  have acts : taskStep c z (.locked (args p) ttl) file [] =
      .stop (undisturbed c z args p file).2 := by
    rcases reads with ⟨key, mode⟩ | mode | ⟨start, mode⟩ <;> simp [taskStep, mode, undisturbed]
  have unchanged : (undisturbed c z args p file).1 = file := by
    rcases reads with ⟨key, mode⟩ | mode | ⟨start, mode⟩ <;>
      simp only [undisturbed, clipStoreMain, ttlGiven, mode] <;> split <;> rfl
  rw [show undisturbed c z args p file = (file, (undisturbed c z args p file).2) from
    Prod.ext unchanged rfl]
  exact .stop acts

private theorem append_finishes {stdin : Bytes} (mode : (args p).mode = .append stdin) :
    Finishes (clipStoreProgram c z args) (.locked (args p) ttl) file none
      (undisturbed c z args p file) := by
  have acts : taskStep c z (.locked (args p) ttl) file [] =
      .read (.appending ttl (args p).clock (pieces lf stdin) 1) := by simp [taskStep, mode]
  have result : undisturbed c z args p file =
      appendLoop c z ttl (args p).clock (pieces lf stdin) 1 file := by
    simp only [undisturbed, clipStoreMain, ttlGiven, mode]
  rw [result]
  exact .read acts (appending_finishes ttl (args p).clock (pieces lf stdin) 1 file)

private theorem set_finishes {arg : Bytes} (mode : (args p).mode = .set arg) :
    Finishes (clipStoreProgram c z args) (.locked (args p) ttl) file none
      (undisturbed c z args p file) := by
  have result : undisturbed c z args p file = match parseSetExpr arg with
      | none => (file, 1)
      | some (key, value) => if value = [] then (file, 1)
        else appendedOne z file key value (expireAt ttl ((args p).clock 0)) := by
    simp only [undisturbed, clipStoreMain, ttlGiven, mode, appendedOne]
    rcases parseSetExpr arg with _ | ⟨key, value⟩
    · rfl
    · dsimp only
      split_ifs
      · rfl
      · cases appendDbRow z file key value (expireAt ttl ((args p).clock 0)) <;> rfl
  have acts : taskStep c z (.locked (args p) ttl) file [] = match parseSetExpr arg with
      | none => .stop 1
      | some (key, value) => if value = [] then .stop 1
        else appendOne z file key value (expireAt ttl ((args p).clock 0)) := by
    simp only [taskStep, mode]
  rw [result]
  cases expr : parseSetExpr arg with
  | none =>
      rw [expr] at acts
      exact .stop acts
  | some entry =>
      obtain ⟨key, value⟩ := entry
      rw [expr] at acts
      dsimp only at acts ⊢
      split_ifs at acts ⊢
      · exact .stop acts
      · exact appendOne_finishes file key value _ acts

private theorem delete_finishes {key : Bytes} (mode : (args p).mode = .delete key) :
    Finishes (clipStoreProgram c z args) (.locked (args p) ttl) file none
      (undisturbed c z args p file) := by
  have result : undisturbed c z args p file =
      if key = [] then (file, 1) else appendedOne z file key [] 0 := by
    simp only [undisturbed, clipStoreMain, ttlGiven, mode, appendedOne]
    split_ifs
    · rfl
    · cases appendDbRow z file key [] 0 <;> rfl
  have acts : taskStep c z (.locked (args p) ttl) file [] =
      if key = [] then .stop 1 else appendOne z file key [] 0 := by simp only [taskStep, mode]
  rw [result]
  split_ifs at acts ⊢
  · exact .stop acts
  · exact appendOne_finishes file key [] 0 acts

private theorem compact_finishes (mode : (args p).mode = .compact) :
    Finishes (clipStoreProgram c z args) (.locked (args p) ttl) file none
      (undisturbed c z args p file) := by
  have result : undisturbed c z args p file =
      match dbRewriteCompact z file (args p).db ((args p).clock 0) with
        | some out => (out, 0)
        | none => (file, 1) := by
    simp only [undisturbed, clipStoreMain, ttlGiven, mode]
    cases dbRewriteCompact z file (args p).db ((args p).clock 0) <;> rfl
  obtain ⟨rows, loaded, _⟩ := loadLatestRows_holds z file
  have acts : taskStep c z (.locked (args p) ttl) file [] =
      if pathMax ≤ ((args p).db ++ ascii ".tmp").length then .stop 1
      else .read (.compacting rows.buckets ((args p).clock 0)) := by
    simp only [taskStep, mode, loaded]
  rw [result]
  simp only [dbRewriteCompact, loaded, Option.bind_eq_bind, Option.bind_some]
  split_ifs at acts ⊢
  · exact .stop acts
  · exact .read acts (.openTmp rfl (rewriting_finishes rows.buckets ((args p).clock 0) file []))

private theorem locked_finishes :
    Finishes (clipStoreProgram c z args) (.locked (args p) ttl) file none
      (undisturbed c z args p file) := by
  cases mode : (args p).mode with
  | append stdin => exact append_finishes ttlGiven file mode
  | set arg => exact set_finishes ttlGiven file mode
  | get key => exact reading_finishes ttlGiven file (.inl ⟨key, mode⟩)
  | list => exact reading_finishes ttlGiven file (.inr (.inl mode))
  | listPrefix start => exact reading_finishes ttlGiven file (.inr (.inr ⟨start, mode⟩))
  | delete key => exact delete_finishes ttlGiven file mode
  | compact => exact compact_finishes ttlGiven file mode

end Modes

section Runs

variable [DecidableEq ι]

/-- When every run that obtains the lock still has the file open that the path names, the
runs that all exit with status 0 leave what some serial order of them leaves. -/
theorem clipStore_serialisable {w w' : World ι Bytes Task} (initial : Initial w)
    {schedule : List ι}
    (fresh : Schedule.Guarded (step (clipStoreProgram c z args)) Fresh w schedule)
    (ran : Schedule.run (step (clipStoreProgram c z args)) w schedule = some w')
    (succeeded : ∀ p, (w'.procs p).exitStatus = some 0) :
    Serialisable c z args (w.content []) (w'.content []) := by
  have solo (p : ι) (s : Task) (entry : (clipStoreProgram c z args).entry p = some s)
      (before : Bytes) : Finishes (clipStoreProgram c z args) s before none
        (undisturbed c z args p before) := by
    obtain ⟨ttl, ttlGiven, rfl⟩ := Option.map_eq_some_iff.mp entry
    exact locked_finishes ttlGiven before
  obtain ⟨order, nodup, content, placed⟩ :=
    exited_serialised solo initial fresh ran fun p => by rw [succeeded p]; rfl
  refine ⟨order, nodup, fun p => ?_, fun key => congrArg (loadLatestRow z · key) content⟩
  rcases placed p 0 (succeeded p) with ⟨earlier, later, rfl, _⟩ | ⟨_, wrong⟩
  · simp
  · cases wrong

end Runs

/-- One database file under the path, and runs that have not begun. -/
def oneFile (file : Bytes) : World (Fin 2) Bytes Task where
  disk fd := if fd = 0 then file else []
  used := 1
  path := some 0
  tmp := none
  holder _ := none
  procs _ := .start

theorem oneFile_initial (file : Bytes) : Initial (oneFile file) :=
  ⟨fun _ => rfl, fun _ => rfl, fun fd h => by simp [oneFile] at h ⊢; omega,
    fun t h => by simp [oneFile] at h⟩

/-- A compaction and a `--set` of the key `k`. -/
def compactAndSet (p : Fin 2) : Invocation :=
  if p = 0 then ⟨ascii "clips.db", ascii "0", .compact, fun _ => 100⟩
  else ⟨ascii "clips.db", ascii "0", .set (ascii "k=v"), fun _ => 100⟩

def raceProgram : Program (Fin 2) Bytes Task :=
  clipStoreProgram (.ofDialect exactDialect) storedZlib compactAndSet

/-- The `--set` opens the path behind the rename, while the compaction still holds its lock. -/
theorem clipStore_serialisable_behind_rename :
    ∃ w', Schedule.run (step raceProgram) (oneFile [])
        [0, 0, 0, 0, 0, 1, 0, 1, 1, 1, 1] = some w' ∧
      Serialisable (.ofDialect exactDialect) storedZlib compactAndSet
        ((oneFile []).content []) (w'.content []) :=
  ⟨(Schedule.run (step raceProgram) (oneFile [])
      [0, 0, 0, 0, 0, 1, 0, 1, 1, 1, 1]).get (by decide +kernel), (Option.some_get _).symm,
    clipStore_serialisable (oneFile_initial [])
      (show Schedule.Guarded (step raceProgram) Fresh (oneFile [])
        [0, 0, 0, 0, 0, 1, 0, 1, 1, 1, 1] by decide +kernel)
      (Option.some_get _).symm (by decide +kernel)⟩

private theorem orders_of_two {order : List (Fin 2)} (nodup : order.Nodup)
    (all : ∀ p, p ∈ order) : order = [0, 1] ∨ order = [1, 0] := by
  have perm : order.Perm [0, 1] :=
    (List.perm_ext_iff_of_nodup nodup (by decide)).mpr fun p => by
      have listed : p ∈ [0, 1] := by revert p; decide
      simp only [all p, listed]
  obtain ⟨a, b, rfl⟩ := List.length_eq_two.mp perm.length_eq
  revert a b
  decide

/-- Both runs open the file; the compaction replaces it while the `--set` waits for the lock,
which it then gets on the old file. Both exit with status 0, and the row of `k` is lost. -/
theorem stale_lock_loses_row :
    ∃ schedule w', Schedule.run (step raceProgram) (oneFile []) schedule = some w' ∧
      (∀ p, (w'.procs p).exitStatus = some 0) ∧
      ¬ Serialisable (.ofDialect exactDialect) storedZlib compactAndSet
        ((oneFile []).content []) (w'.content []) := by
  refine ⟨[0, 1, 0, 0, 0, 0, 0, 1, 1, 1, 1],
    (Schedule.run (step raceProgram) (oneFile [])
      [0, 1, 0, 0, 0, 0, 0, 1, 1, 1, 1]).get (by decide +kernel), (Option.some_get _).symm,
    by decide +kernel, ?_⟩
  rintro ⟨order, nodup, all, same⟩
  have lost := same (ascii "k")
  rw [loadLatestRow_eq, loadLatestRow_eq] at lost
  rcases orders_of_two nodup all with rfl | rfl
  · revert lost
    decide +kernel
  · revert lost
    decide +kernel

end StreamDataPipeline.ClipStore.Concurrent
