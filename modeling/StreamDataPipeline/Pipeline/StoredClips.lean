/- What the database holds once a session has gone through the three applets. -/

import StreamDataPipeline.ClipStore.TtlRefinement
import StreamDataPipeline.Pipeline.ClipAccepted
import StreamDataPipeline.Pipeline.ClipKeys
import StreamDataPipeline.Pipeline.ProcessChain

/-!
A session is any run of the clip state machine with the final flush. Every clip is one line
of stream_merge, which log_parse passes on and clip_store files under the second in which
the clip starts.
-/

set_option autoImplicit false
set_option relaxedAutoImplicit false

namespace StreamDataPipeline.Pipeline.StoredClips

open Foundations Foundations.ByteString Foundations.Decimal Foundations.Lines
  Foundations.ExpiringMap Foundations.Json Foundations.JsonText Foundations.PipeChain
open Lib.JsonlCodec LogParse.FilterExpr LogParse.JsonlMode
open StreamMerge.Fsm StreamMerge.FsmRun StreamMerge.EmitClip
open ClipStore.Format ClipStore.Main ClipStore.TtlRefinement
open ClipLine ClipAccepted ClipKeys ProcessChain

/-- What is printed for an action; `none` is the return value -1. -/
def handleAction (c : CJson) (src session : Bytes) : SmFsmAction → Option Bytes
  | .emitComplete clip => emitClip c clip src session true
  | .emitPartial clip => emitClip c clip src session false
  | .rejectLate | .none => some []

/-- The actions of a whole session, with the one of the final flush. -/
def sessionActions (events : List FsmEvent) : List SmFsmAction :=
  (fsmRun smFsmReset events).2 ++ [(smFsmFlushFinal (fsmRun smFsmReset events).1).2]

/-- Standard output of stream_merge for the actions; `none` if printing one of them fails. -/
def printActions (c : CJson) (src session : Bytes) : List SmFsmAction → Option Bytes
  | [] => some []
  | action :: rest => do
      let out ← handleAction c src session action
      let more ← printActions c src session rest
      pure (out ++ more)

/-- A clip with the line that is printed for it. -/
abbrev PrintedClip := SmClipRecord × Bytes

/-- The line of a clip: what is printed for its action, without the newline. -/
def linesOf (c : CJson) (src session : Bytes) (action : SmFsmAction) : List PrintedClip :=
  (clipsOf action).map fun clip => (clip, ((handleAction c src session action).getD []).dropLast)

/-- The clips of a session with their lines, in the order of emission. -/
def sessionLines (c : CJson) (src session : Bytes) (events : List FsmEvent) : List PrintedClip :=
  (sessionActions events).flatMap (linesOf c src session)

/-- The writes that the clips ask of the database; `calls` counts the calls of `time`. -/
def clipWrites (session : Bytes) (ttl : Int) (clock : Nat → Nat) :
    List PrintedClip → Nat → List ClipWrite
  | [], _ => []
  | (clip, line) :: rest, calls =>
      .put (clipKey session (tsSec clip)) line (expiry ttl (clock calls)) ::
        clipWrites session ttl clock rest (calls + 1)

/-- A line that goes through log_parse as it is, and that clip_store files under the key of
its clip. -/
structure Carried (c : CJson) (session : Bytes) (printed : PrintedClip) : Prop where
  single : lf ∉ printed.2
  nulFree : nul ∉ printed.2
  nonempty : printed.2 ≠ []
  passes : (jsonlLine c typeClipFilter (printed.2 ++ [lf])).1 = printed.2 ++ [lf]
  record : clipRecord c (printed.2 ++ [lf]) =
    some (clipKey session (tsSec printed.1), printed.2)

/-- A session whose names need no escaping and fit the fields that they are copied to. -/
structure Carriable (d : Dialect) (src session : Bytes) : Prop where
  plain : ∀ b ∈ src ++ session, Plain d b ∧ b ≠ lf
  nulFree : nul ∉ src ++ session
  field : tab ∉ session ∧ cr ∉ session
  short : session.length < 128

variable {c : CJson} {d : Dialect} {z : Zlib} {src session path : Bytes}

theorem Carriable.fieldBytes (carriable : Carriable d src session) :
    ∀ b ∈ session, FieldByte b := by
  have plain := List.forall_mem_append.mp carriable.plain
  have nulFree := carriable.nulFree
  rw [List.mem_append, not_or] at nulFree
  exact (fieldBytes_iff session).mpr ⟨nulFree.2, carriable.field.1,
    fun mem => (plain.2 lf mem).2 rfl, carriable.field.2⟩

theorem emitClip_carried (correct : c.IsCorrect d) (carriable : Carriable d src session)
    (built : artifactPath src session = some path) {clip : SmClipRecord}
    (active : clip.active = true) (safe : |tsSec clip| ≤ 2 ^ 53 - 1) (complete : Bool) :
    ∃ line, emitClip c clip src session complete = some (line ++ [lf]) ∧
      Carried c session (clip, line) := by
  obtain ⟨texts, printed, strings⟩ := emitClip_eq correct active built complete
  have plain := List.forall_mem_append.mp carriable.plain
  have pathPlain := (plain_path_iff built).mpr plain
  have nulFree := carriable.nulFree
  rw [List.mem_append, not_or] at nulFree
  have pathNulFree : nul ∉ path := by
    rw [artifactPath_eq built]
    simp only [List.mem_append, not_or]
    exact ⟨⟨nulFree.1, by decide⟩, nulFree.2, by decide⟩
  have lineNulFree : nul ∉ clipLine clip session path complete texts :=
    nul_not_mem_clipLine nulFree.2 pathNulFree strings
  have single : lf ∉ clipLine clip session path complete texts := by
    intro mem
    rcases clipLine_bytes clip session path complete strings lf mem with here | here | visible
    · exact (plain.2 lf here).2 rfl
    · exact (pathPlain lf here).2 rfl
    · exact absurd visible (by decide)
  obtain ⟨members, (object : parseObject c (clipLine clip session path complete texts) = _),
    sessionRead, -, tsRead, type⟩ := clipLine_fields correct
      (fun b mem => (plain.2 b mem).1) (fun b mem => (pathPlain b mem).1) safe strings
  have passes := clipLine_passes lineNulFree single object type
  have record := clipRecord_eq (stripLine_object lineNulFree) nulFree.2 object sessionRead tsRead
  rw [if_pos ⟨carriable.short, safe⟩] at record
  refine ⟨_, printed, single, lineNulFree, by simp [clipLine, objectText], ?_, record⟩
  simpa [jsonlMode, pieces_line single] using passes

theorem printActions_carried (correct : c.IsCorrect d) (carriable : Carriable d src session)
    (built : artifactPath src session = some path) {actions : List SmFsmAction}
    (active : ∀ clip ∈ emittedClips actions, clip.active = true)
    (safe : ∀ clip ∈ emittedClips actions, |tsSec clip| ≤ 2 ^ 53 - 1) :
    printActions c src session actions =
        some ((actions.flatMap (linesOf c src session)).flatMap (·.2 ++ [lf])) ∧
      ∀ printed ∈ actions.flatMap (linesOf c src session), Carried c session printed := by
  induction actions with
  | nil => exact ⟨rfl, by simp⟩
  | cons action rest ih =>
      simp only [emittedClips, List.flatMap_cons, List.forall_mem_append] at active safe
      obtain ⟨later, carried⟩ := ih active.2 safe.2
      have here : ∃ lines, handleAction c src session action = some (lines.flatMap (·.2 ++ [lf])) ∧
          linesOf c src session action = lines ∧ ∀ printed ∈ lines, Carried c session printed := by
        cases action with
        | none => exact ⟨[], rfl, rfl, by simp⟩
        | rejectLate => exact ⟨[], rfl, rfl, by simp⟩
        | emitComplete clip =>
            obtain ⟨line, printed, taken⟩ := emitClip_carried correct carriable built
              (active.1 clip (by simp [clipsOf])) (safe.1 clip (by simp [clipsOf])) true
            exact ⟨[(clip, line)], by simp [handleAction, printed],
              by simp [linesOf, clipsOf, handleAction, printed], by simpa using taken⟩
        | emitPartial clip =>
            obtain ⟨line, printed, taken⟩ := emitClip_carried correct carriable built
              (active.1 clip (by simp [clipsOf])) (safe.1 clip (by simp [clipsOf])) false
            exact ⟨[(clip, line)], by simp [handleAction, printed],
              by simp [linesOf, clipsOf, handleAction, printed], by simpa using taken⟩
      obtain ⟨lines, printed, same, taken⟩ := here
      constructor
      · rw [printActions, printed, later]
        simp [same]
      · rw [List.flatMap_cons, same]
        exact List.forall_mem_append.mpr ⟨taken, carried⟩

theorem map_fst_linesOf (c : CJson) (src session : Bytes) (actions : List SmFsmAction) :
    (actions.flatMap (linesOf c src session)).map Prod.fst = emittedClips actions := by
  rw [List.map_flatMap, emittedClips]
  congr 1
  funext action
  rw [linesOf, List.map_map]
  exact List.map_id _

variable {lines : List PrintedClip}

theorem pieces_carried (carried : ∀ printed ∈ lines, Carried c session printed) :
    pieces lf (lines.flatMap (·.2 ++ [lf])) = lines.map (·.2 ++ [lf]) := by
  have single : ∀ line ∈ lines.map Prod.snd, lf ∉ line := by
    intro line mem
    obtain ⟨printed, here, rfl⟩ := List.mem_map.mp mem
    exact (carried printed here).single
  have read := pieces_lines single
  rw [List.flatMap_map, List.map_map] at read
  exact read

theorem jsonlMode_carried (carried : ∀ printed ∈ lines, Carried c session printed) :
    (jsonlMode c typeClipFilter (lines.flatMap (·.2 ++ [lf]))).1 =
      lines.flatMap (·.2 ++ [lf]) := by
  rw [jsonlMode, pieces_carried carried]
  simp only [List.map_map, List.flatMap_map]
  exact List.flatMap_congr fun printed mem => (carried printed mem).passes

theorem lineWrites_carried (ttl : Int) (clock : Nat → Nat)
    (carried : ∀ printed ∈ lines, Carried c session printed) (calls : Nat) :
    lineWrites c ttl clock (lines.map (·.2 ++ [lf])) calls =
      clipWrites session ttl clock lines calls := by
  induction lines generalizing calls with
  | nil => rfl
  | cons printed rest ih =>
      rw [List.forall_mem_cons] at carried
      obtain ⟨clip, line⟩ := printed
      rw [List.map_cons, lineWrites, clipWrites, carried.1.record]
      exact congrArg _ (ih carried.2 (calls + 1))

theorem clipWrites_admissible {ttl : Int} {clock : Nat → Nat}
    (fieldBytes : ∀ b ∈ session, FieldByte b)
    (fits : ∀ n, ∀ t ∈ expiry ttl (clock n), t ≤ longMax)
    (carried : ∀ printed ∈ lines, Carried c session printed) (calls : Nat) :
    ∀ w ∈ clipWrites session ttl clock lines calls, Admissible w := by
  induction lines generalizing calls with
  | nil => simp [clipWrites]
  | cons printed rest ih =>
      rw [List.forall_mem_cons] at carried
      obtain ⟨clip, line⟩ := printed
      rw [clipWrites, List.forall_mem_cons]
      refine ⟨⟨by simp [Write.key, clipKey], ?_, carried.1.nonempty, carried.1.nulFree,
        fits calls⟩, ih carried.2 (calls + 1)⟩
      exact (clipKey_clean_iff session (tsSec clip)).mpr fieldBytes

theorem appendLoop_carried (carried : ∀ printed ∈ lines, Carried c session printed)
    (compresses : ∀ printed ∈ lines, (z.compress printed.2).isSome) (ttl : Int)
    (clock : Nat → Nat) (calls : Nat) (file : Bytes) :
    (appendLoop c z ttl clock (lines.map (·.2 ++ [lf])) calls file).2 = 0 := by
  induction lines generalizing calls file with
  | nil => rfl
  | cons printed rest ih =>
      rw [List.forall_mem_cons] at carried compresses
      obtain ⟨comp, compressed⟩ := Option.isSome_iff_exists.mp compresses.1
      have appended : ∃ next, appendDbRow z file (clipKey session (tsSec printed.1)) printed.2
          (expireAt ttl (clock calls)) = some next := by
        rw [appendDbRow_eq, storedValue, if_neg carried.1.nonempty, compressed]
        exact ⟨_, rfl⟩
      obtain ⟨next, appended⟩ := appended
      simp only [List.map_cons, appendLoop, carried.1.record, appended]
      exact ih carried.2 compresses.2 (calls + 1) next

/-- The database that the three applets leave holds one write for every clip, in order. -/
theorem stores_carried {args : Invocation} {ttl : Int} (ttlGiven : parseTtl args.ttlArg = some ttl)
    (fits : ∀ n, ∀ t ∈ expiry ttl (args.clock n), t ≤ longMax)
    (fieldBytes : ∀ b ∈ session, FieldByte b)
    (carried : ∀ printed ∈ lines, Carried c session printed)
    (compresses : ∀ printed ∈ lines, (z.compress printed.2).isSome) :
    Stores z (clipStoreMain c z []
        { args with mode := .append (jsonlMode c typeClipFilter
          (lines.flatMap (·.2 ++ [lf]))).1 }).1 (clipWrites session ttl args.clock lines 1) := by
  have read := pieces_carried carried
  have writes : writesOf c { args with mode := .append (lines.flatMap (·.2 ++ [lf])) } =
      clipWrites session ttl args.clock lines 1 := by
    simp only [writesOf, ttlGiven]
    rw [read]
    exact lineWrites_carried ttl args.clock carried 1
  have succeeds : (clipStoreMain c z []
      { args with mode := .append (lines.flatMap (·.2 ++ [lf])) }).2.status = 0 := by
    simp only [clipStoreMain, ttlGiven]
    rw [read]
    exact appendLoop_carried carried compresses ttl args.clock 1 []
  rw [jsonlMode_carried carried]
  have fresh : Stores z [] [] := ⟨.inl rfl, rfl, by simp⟩
  have step := clipStoreMain_step c fresh (by simp)
    (writes ▸ clipWrites_admissible fieldBytes fits carried 1) succeeds
  rw [writes] at step
  exact step.1

/-- A mode that only reads. -/
def IsQuery : ClipMode → Prop
  | .get _ | .list | .listPrefix _ => True
  | _ => False

theorem sessionActions_active (events : List FsmEvent) :
    ∀ clip ∈ emittedClips (sessionActions events), clip.active = true := by
  intro clip mem
  rw [sessionActions, emittedClips, List.flatMap_append, List.mem_append] at mem
  rcases mem with here | last
  · exact emitted_active smFsmReset events clip here
  · have flush := (flushFinal_step (fsmRun smFsmReset events).1).1
    generalize smFsmFlushFinal (fsmRun smFsmReset events).1 = next at flush last
    cases flush with
    | keep => simp [clipsOf] at last
    | flush active pending =>
        simp only [List.flatMap_cons, List.flatMap_nil, List.append_nil, clipsOf,
          List.mem_singleton] at last
        rw [last]
        exact active

theorem sessionLines_carried (correct : c.IsCorrect d) (carriable : Carriable d src session)
    (built : artifactPath src session = some path) {events : List FsmEvent}
    (safe : ∀ clip ∈ runClips events, |tsSec clip| ≤ 2 ^ 53 - 1) :
    printActions c src session (sessionActions events) =
        some ((sessionLines c src session events).flatMap (·.2 ++ [lf])) ∧
      ∀ printed ∈ sessionLines c src session events, Carried c session printed :=
  printActions_carried correct carriable built (sessionActions_active events) safe

theorem query_answers {file : Bytes} {history : List ClipWrite} (stores : Stores z file history)
    {query : Invocation} (reads : IsQuery query.mode)
    (succeeds : (clipStoreMain c z file query).2.status = 0) :
    Answers (after history) query (clipStoreMain c z file query).2.stdout := by
  have plain : query.mode ≠ .compact := by
    intro compacts
    rw [compacts] at reads
    exact reads
  have quiet : writesOf c query = [] := by
    unfold writesOf
    cases parseTtl query.ttlArg with
    | none => rfl
    | some ttl => cases mode : query.mode <;> simp_all [IsQuery]
  exact (clipStoreMain_step c stores plain (by simp [quiet]) succeeds).2

/-- What the three applets leave of a session that is printed answers as its writes say. -/
theorem stuck_answers (correct : c.IsCorrect d) (carriable : Carriable d src session)
    (built : artifactPath src session = some path) {events : List FsmEvent}
    (safe : ∀ clip ∈ runClips events, |tsSec clip| ≤ 2 ^ 53 - 1)
    {args : Invocation} {ttl : Int} (ttlGiven : parseTtl args.ttlArg = some ttl)
    (fits : ∀ n, ∀ t ∈ expiry ttl (args.clock n), t ≤ longMax)
    (compresses : ∀ printed ∈ sessionLines c src session events, (z.compress printed.2).isSome)
    {sizes : Sizes} (room : 0 < sizes.pipe1 ∧ 0 < sizes.pipe2) {schedule : List (Nat × Action)}
    {sys : List (Stage UInt8) × Bytes}
    (ran : Schedule.run step (pipelineStages c z typeClipFilter ttl args.clock
      ((sessionLines c src session events).flatMap (·.2 ++ [lf])) sizes, []) schedule = some sys)
    (stuck : ∀ move, step sys move = none) {query : Invocation} (reads : IsQuery query.mode)
    (succeeds : (clipStoreMain c z sys.2 query).2.status = 0) :
    Answers (after (clipWrites session ttl args.clock (sessionLines c src session events) 1)) query
      (clipStoreMain c z sys.2 query).2.stdout := by
  have carried := (sessionLines_carried correct carriable built safe).2
  obtain ⟨-, file⟩ := stuck_file c z typeClipFilter ttlGiven [] _ room ran stuck
  have stores := stores_carried (z := z) ttlGiven fits carriable.fieldBytes carried compresses
  rw [← file] at stores
  exact query_answers stores reads succeeds

/-- A gap, a window end and an idle timeout. -/
def threeClips : List FsmEvent :=
  [.record (dataRecord 1 0 4 1200) 1000 0, .record (dataRecord 3 8 4 2000) 1000 10,
    .record (dataRecord 4 12 4 3100) 1000 20, .idle 5 100]

end StreamDataPipeline.Pipeline.StoredClips
