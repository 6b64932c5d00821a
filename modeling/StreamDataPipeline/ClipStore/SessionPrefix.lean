/- What a query by the prefix of a session prints, over a database that append mode built. -/

import StreamDataPipeline.ClipStore.Expiry

set_option autoImplicit false
set_option relaxedAutoImplicit false

namespace StreamDataPipeline.ClipStore.SessionPrefix

open Foundations.ByteString Foundations.Lines Foundations.LastWrite Foundations.Decimal
open Foundations.Json Lib.JsonlCodec Format Query Main Expiry

/-- The session that the text of a record names. -/
def sessionOf (c : CJson) (text : Bytes) : Option Bytes :=
  jsonlGetString c text (ascii "session_id") 128

/-- A run in append mode whose session names hold no byte that ends a field or a line. -/
def CleanAppend (c : CJson) (args : Invocation) : Prop :=
  ∃ stdin, args.mode = .append stdin ∧ ∀ line ∈ pieces lf stdin,
    ∀ session ∈ sessionOf c (stripLine line), ∀ b ∈ session, FieldByte b

def database (c : CJson) (z : Zlib) (runs : List Invocation) : Bytes :=
  runs.foldl (fun file args => (clipStoreMain c z file args).1) []

def recordRows (c : CJson) (args : Invocation) : List Row :=
  match parseTtl args.ttlArg with
  | none => []
  | some ttl => (datedWrites c args).map (Dated.row ttl)

/-- The rows that a run stores: up to the first one whose value is not compressed. -/
def storedRows (c : CJson) (z : Zlib) (args : Invocation) : List Row :=
  (recordRows c args).takeWhile fun row => (rowLine z row).isSome

/-- The row of a record: its key is made of the session and the time that its value names. -/
def Recorded (c : CJson) (row : Row) : Prop :=
  ∃ session ts, sessionOf c row.value = some session ∧
    jsonlGetInt64 c row.value (ascii "ts") = some ts ∧ row.key = clipKey session ts

theorem clipRecord_recorded {c : CJson} {line key value : Bytes}
    (record : clipRecord c line = some (key, value)) :
    value = stripLine line ∧ ∃ session ts, sessionOf c value = some session ∧
      jsonlGetInt64 c value (ascii "ts") = some ts ∧ key = clipKey session ts := by
  obtain ⟨session, sessionRead, rest⟩ := Option.bind_eq_some_iff.mp record
  obtain ⟨ts, tsRead, equal⟩ := Option.bind_eq_some_iff.mp rest
  cases equal
  exact ⟨rfl, session, ts, sessionRead, tsRead, rfl⟩

theorem nul_not_mem_stripLine (line : Bytes) : nul ∉ stripLine line := by
  intro mem
  have kept := (List.dropWhile_sublist _).subset (List.mem_reverse.mp mem)
  exact nul_not_mem_cstr line (List.mem_reverse.mp kept)

theorem recordRows_spec {c : CJson} {args : Invocation} (clean : CleanAppend c args) {row : Row}
    (mem : row ∈ recordRows c args) : Storable row ∧ Recorded c row := by
  obtain ⟨stdin, mode, names⟩ := clean
  unfold recordRows at mem
  split at mem
  · cases mem
  · rename_i ttl given
    obtain ⟨w, dated, rfl⟩ := List.mem_map.mp mem
    simp only [datedWrites, mode] at dated
    obtain ⟨line, here, record⟩ := List.mem_filterMap.mp (datedRecords_record dated)
    obtain ⟨text, session, ts, sessionRead, tsRead, key⟩ := clipRecord_recorded record
    have sessionClean := names line here session (text ▸ sessionRead)
    refine ⟨⟨?_, ?_, expireAt_long ttl w.now⟩, session, ts, sessionRead, tsRead, key⟩
    · rw [Dated.row, key]
      exact (clipKey_clean_iff session ts).mpr sessionClean
    · rw [Dated.row, text]
      exact nul_not_mem_stripLine line

theorem dbRows_appendLoop (c : CJson) (z : Zlib) (ttl : Int) (clock : Nat → Nat)
    (lines : List Bytes) (calls : Nat) {file : Bytes} (closed : Closed lf file)
    (storable : ∀ w ∈ datedRecords clock (lines.filterMap (clipRecord c)) calls,
      Storable (w.row ttl)) :
    let rows := (datedRecords clock (lines.filterMap (clipRecord c)) calls).map (Dated.row ttl)
    let run := appendLoop c z ttl clock lines calls file
    dbRows z run.1 = dbRows z file ++ rows.takeWhile (fun row => (rowLine z row).isSome) ∧
      Closed lf run.1 ∧ (run.2 = 0 → ∀ row ∈ rows, (rowLine z row).isSome) := by
  induction lines generalizing calls file with
  | nil => exact ⟨(List.append_nil _).symm, closed, fun _ row mem => by cases mem⟩
  | cons line rest ih =>
      rw [List.filterMap_cons] at storable ⊢
      rw [appendLoop]
      cases record : clipRecord c line with
      | none =>
          rw [record] at storable
          exact ih calls closed storable
      | some pair =>
          obtain ⟨key, value⟩ := pair
          rw [record] at storable
          simp only [datedRecords, List.forall_mem_cons] at storable
          have appended : appendDbRow z file key value (expireAt ttl (clock calls)) =
              (rowLine z (Dated.row ttl ⟨clock calls, key, value⟩)).map (file ++ ·) :=
            appendDbRow_line z file (Dated.row ttl ⟨clock calls, key, value⟩)
          simp only [datedRecords, List.map_cons, List.forall_mem_cons]
          cases printed : rowLine z (Dated.row ttl ⟨clock calls, key, value⟩) with
          | none =>
              rw [printed] at appended
              simp only [appended, Option.map_none, List.takeWhile_cons, printed]
              exact ⟨(List.append_nil _).symm, closed, fun failed => absurd failed one_ne_zero⟩
          | some text =>
              rw [printed] at appended
              obtain ⟨grown, closed'⟩ := dbRows_appendDbRow closed storable.1 appended
              obtain ⟨later, closed'', whole⟩ := ih (calls + 1) closed' storable.2
              simp only [appended, Option.map_some, List.takeWhile_cons, printed,
                Option.isSome_some, if_true]
              refine ⟨?_, closed'', fun zero => ⟨trivial, whole zero⟩⟩
              rw [later, grown, List.append_assoc]
              rfl

/-- A clean run adds the rows that it stores, and where it returns 0 these are all. -/
theorem dbRows_run {c : CJson} {args : Invocation} (clean : CleanAppend c args) (z : Zlib)
    {file : Bytes} (closed : Closed lf file) :
    dbRows z (clipStoreMain c z file args).1 = dbRows z file ++ storedRows c z args ∧
      Closed lf (clipStoreMain c z file args).1 ∧
      ((clipStoreMain c z file args).2.status = 0 → storedRows c z args = recordRows c args) := by
  have storable : ∀ row ∈ recordRows c args, Storable row :=
    fun row mem => (recordRows_spec clean mem).1
  obtain ⟨stdin, mode, -⟩ := clean
  unfold storedRows
  unfold recordRows at storable ⊢
  cases given : parseTtl args.ttlArg with
  | none =>
      simp only [clipStoreMain, given]
      exact ⟨(List.append_nil _).symm, closed, fun _ => rfl⟩
  | some ttl =>
      rw [given] at storable
      simp only [clipStoreMain, given, mode, datedWrites] at storable ⊢
      obtain ⟨rows, closed', whole⟩ := dbRows_appendLoop c z ttl args.clock (pieces lf stdin) 1
        closed fun w mem => storable _ (List.mem_map_of_mem mem)
      exact ⟨rows, closed', fun zero => List.takeWhile_eq_self_iff.mpr (whole zero)⟩

theorem database_concat (c : CJson) (z : Zlib) (runs : List Invocation) (args : Invocation) :
    database c z (runs ++ [args]) = (clipStoreMain c z (database c z runs) args).1 := by
  rw [database, List.foldl_append, List.foldl_cons, List.foldl_nil, database]

theorem dbRows_database {c : CJson} {runs : List Invocation}
    (clean : ∀ args ∈ runs, CleanAppend c args) (z : Zlib) :
    dbRows z (database c z runs) = runs.flatMap (storedRows c z) ∧
      Closed lf (database c z runs) := by
  induction runs using List.reverseRecOn with
  | nil => exact ⟨rfl, .inl rfl⟩
  | append_singleton runs args ih =>
      rw [List.forall_mem_append, List.forall_mem_singleton] at clean
      obtain ⟨rows, closed⟩ := ih clean.1
      obtain ⟨read, closed', -⟩ := dbRows_run clean.2 z closed
      rw [database_concat, List.flatMap_append, List.flatMap_singleton, read, rows]
      exact ⟨rfl, closed'⟩

theorem recorded_of_stored {c : CJson} {z : Zlib} {runs : List Invocation}
    (clean : ∀ args ∈ runs, CleanAppend c args) {row : Row}
    (mem : row ∈ runs.flatMap (storedRows c z)) : Recorded c row := by
  obtain ⟨args, here, stored⟩ := List.mem_flatMap.mp mem
  exact (recordRows_spec (clean args here) ((List.takeWhile_sublist _).subset stored)).2

theorem colon_not_mem_decimal (ts : Int) : 58 ∉ decimal ts := by
  intro mem
  rcases decimal_chars ts 58 mem with digit | minus
  · exact absurd digit (by decide)
  · exact absurd minus (by decide)

theorem Recorded.prefix_iff {c : CJson} {row : Row} (recorded : Recorded c row)
    (session : Bytes) :
    session ++ [58] <+: row.key ↔
      ∃ name, sessionOf c row.value = some name ∧
        (name = session ∨ session ++ [58] <+: name) := by
  obtain ⟨name, ts, named, -, key⟩ := recorded
  rw [key, clipKey, prefix_before_last (colon_not_mem_decimal ts), named]
  simp

/-- The row is the latest one of its key, and live. -/
def LiveRow (rows : List Row) (now : Int) (row : Row) : Prop :=
  lastWrite Row.key rows row.key = some row ∧ rowIsLive row now = true

/-- The database holds the rows that the runs have stored, which are those of all their records
where they return 0. A query for `session:` prints the live ones of the session and of the
sessions whose names begin with `session:`, and so the rows of the session alone exactly when
none of the others is live. -/
theorem prefix_lists_sessions {c : CJson} (z : Zlib) {runs : List Invocation}
    (clean : ∀ args ∈ runs, CleanAppend c args) (session : Bytes) {query : Invocation}
    (mode : query.mode = .listPrefix (session ++ [58])) {ttl : Int}
    (given : parseTtl query.ttlArg = some ttl) :
    dbRows z (database c z runs) = runs.flatMap (storedRows c z) ∧
    (∀ before args, before ++ [args] <+: runs →
      (clipStoreMain c z (database c z before) args).2.status = 0 →
        storedRows c z args = recordRows c args) ∧
    ∃ printed : List Row,
      (printed.map Row.key).Nodup ∧
      clipStoreMain c z (database c z runs) query =
        (database c z runs, ⟨printed.flatMap printRow, 0⟩) ∧
      (∀ row, row ∈ printed ↔ LiveRow (runs.flatMap (storedRows c z)) (query.clock 0) row ∧
        ∃ name, sessionOf c row.value = some name ∧
          (name = session ∨ session ++ [58] <+: name)) ∧
      ((∀ row ∈ printed, sessionOf c row.value = some session) ↔
        ∀ row, LiveRow (runs.flatMap (storedRows c z)) (query.clock 0) row →
          ∀ name, sessionOf c row.value = some name → ¬ session ++ [58] <+: name) := by
  have rows := (dbRows_database clean z).1
  refine ⟨rows, ?_, ?_⟩
  · intro before args front
    have cleanFront : ∀ other ∈ before ++ [args], CleanAppend c other :=
      fun other mem => clean other (front.subset mem)
    rw [List.forall_mem_append, List.forall_mem_singleton] at cleanFront
    exact (dbRows_run cleanFront.2 z (dbRows_database cleanFront.1 z).2).2.2
  obtain ⟨printed, nodup, output, members⟩ :=
    printRows_spec z (database c z runs) (some (session ++ [58])) (query.clock 0)
  have selected : ∀ row, row ∈ printed ↔
      LiveRow (runs.flatMap (storedRows c z)) (query.clock 0) row ∧
      ∃ name, sessionOf c row.value = some name ∧
        (name = session ∨ session ++ [58] <+: name) := by
    intro row
    rw [members, latestRow, rows, LiveRow, and_assoc]
    refine and_congr_right fun last => and_congr_right fun _ => ?_
    exact (recorded_of_stored clean (lastWrite_mem last)).prefix_iff session
  refine ⟨printed, nodup, ?_, selected, ?_⟩
  · simp only [clipStoreMain, given, mode, output]
  · constructor
    · intro alone row live name named longer
      have own := alone row ((selected row).mpr ⟨live, name, named, .inr longer⟩)
      obtain rfl : name = session := Option.some.inj (named.symm.trans own)
      have shorter := longer.length_le
      simp at shorter
    · intro noLonger row mem
      obtain ⟨live, name, named, same | longer⟩ := (selected row).mp mem
      · rw [named, same]
      · exact absurd longer (noLonger row live name named)

/-- A run over the two lines, and a query at the same time. -/
def appendRun (lines : String) : Invocation where
  db := ascii "db"
  ttlArg := ascii "0"
  mode := .append (ascii lines)
  clock := fun _ => 1

def prefixQuery (start : String) : Invocation :=
  { appendRun "" with mode := .listPrefix (ascii start) }

/-- Clips of two cameras, one of which is named like a part of the other. -/
def twoCameras : Invocation :=
  appendRun "\x7b\"session_id\":\"a\",\"ts\":1\x7d\n\x7b\"session_id\":\"a:b\",\"ts\":2\x7d\n"

theorem twoCameras_clean : CleanAppend (.ofDialect exactDialect) twoCameras :=
  ⟨_, rfl, by decide +kernel⟩

theorem prefix_lists_second_camera :
    dbRows storedZlib (database (.ofDialect exactDialect) storedZlib [twoCameras]) =
      [twoCameras].flatMap (storedRows (.ofDialect exactDialect) storedZlib) ∧
    ∃ printed : List Row,
      (printed.map Row.key).Nodup ∧
      clipStoreMain (.ofDialect exactDialect) storedZlib
          (database (.ofDialect exactDialect) storedZlib [twoCameras]) (prefixQuery "a:b:") =
        (database (.ofDialect exactDialect) storedZlib [twoCameras],
          ⟨printed.flatMap printRow, 0⟩) ∧
      ∀ row, row ∈ printed ↔
        LiveRow ([twoCameras].flatMap (storedRows (.ofDialect exactDialect) storedZlib))
          ((prefixQuery "a:b:").clock 0) row ∧
        ∃ name, sessionOf (.ofDialect exactDialect) row.value = some name ∧
          (name = ascii "a:b" ∨ ascii "a:b" ++ [58] <+: name) := by
  have mode : (prefixQuery "a:b:").mode = .listPrefix (ascii "a:b" ++ [58]) := rfl
  have given : parseTtl (prefixQuery "a:b:").ttlArg = some 0 := by decide
  obtain ⟨rows, -, printed, nodup, output, selected, -⟩ :=
    prefix_lists_sessions storedZlib (List.forall_mem_singleton.mpr twoCameras_clean)
      (ascii "a:b") mode given
  exact ⟨rows, printed, nodup, output, selected⟩

/-- A query for `a:` prints the clip of the session `a:b` as well. -/
theorem prefix_mixes_sessions :
    CleanAppend (.ofDialect exactDialect) twoCameras ∧
      ∃ own other : Row,
        (clipStoreMain (.ofDialect exactDialect) storedZlib
            (database (.ofDialect exactDialect) storedZlib [twoCameras]) (prefixQuery "a:")).2 =
          ⟨printRow other ++ printRow own, 0⟩ ∧
        sessionOf (.ofDialect exactDialect) own.value = some (ascii "a") ∧
        sessionOf (.ofDialect exactDialect) other.value = some (ascii "a:b") := by
  refine ⟨twoCameras_clean, ⟨ascii "a:1", ascii "\x7b\"session_id\":\"a\",\"ts\":1\x7d", 0⟩,
    ⟨ascii "a:b:2", ascii "\x7b\"session_id\":\"a:b\",\"ts\":2\x7d", 0⟩, ?_, ?_, ?_⟩
  · decide +kernel
  · decide +kernel
  · decide +kernel

end StreamDataPipeline.ClipStore.SessionPrefix
