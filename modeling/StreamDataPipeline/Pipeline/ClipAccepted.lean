/- Which clip lines log_parse passes on and clip_store files under their key. -/

import StreamDataPipeline.Pipeline.ClipLine

set_option autoImplicit false
set_option relaxedAutoImplicit false

namespace StreamDataPipeline.Pipeline.ClipAccepted

open Foundations.ByteString Foundations.Decimal Foundations.Lines Foundations.LastWrite
  Foundations.Json Foundations.JsonText
open Lib.JsonlCodec Lib.Libpipeline LogParse.FilterExpr LogParse.JsonlMode
open StreamMerge.Fsm StreamMerge.EmitClip
open ClipStore.Format ClipStore.Query ClipStore.Main ClipLine

/-- The filter `type=clip` of the pipeline. -/
def typeClipFilter : Option LogFilter := logFilterParse (ascii "type=clip")

/-- Append mode over any file of finished lines leaves the line as the row of the key. -/
def FoundAfterAppend (c : CJson) (z : Zlib) (args : Invocation) (line key : Bytes) : Prop :=
  ∀ file, Closed lf file → ∃ file' expireAt,
    clipStoreMain c z file { args with mode := .append (line ++ [lf]) } = (file', ⟨[], 0⟩) ∧
      loadLatestRow z file' key = some (some ⟨key, line, expireAt⟩)

/-- A line that both consumers take as it is meant: one line, the three fields are read
back, the filter passes it, and append mode stores it under the key of the clip. -/
structure LineAccepted (c : CJson) (z : Zlib) (args : Invocation) (clip : SmClipRecord)
    (session path line : Bytes) : Prop where
  single : lf ∉ line
  fields : ∃ members, parseObject c line = some members ∧
    getItem members (ascii "session_id") = some (.string session) ∧
    getItem members (ascii "path") = some (.string path) ∧
    getItem members (ascii "ts") = some (.number (tsSec clip))
  passes : (jsonlMode c typeClipFilter (line ++ [lf])).1 = line ++ [lf]
  stored : FoundAfterAppend c z args line (clipKey session (tsSec clip))

def AcceptedDownstream (c : CJson) (z : Zlib) (args : Invocation) (clip : SmClipRecord)
    (src session out : Bytes) : Prop :=
  ∃ path line, artifactPath src session = some path ∧ out = line ++ [lf] ∧
    LineAccepted c z args clip session path line

/-- Session id and source directory need no escaping, the session id fits the key of a row
and the buffer of clip_store, and the second is an exact machine number. -/
structure FitsUnescaped (d : Dialect) (clip : SmClipRecord) (src session : Bytes) : Prop where
  plain : ∀ b ∈ src ++ session, Plain d b ∧ b ≠ lf
  field : tab ∉ session ∧ cr ∉ session
  short : session.length < 128
  safe : |tsSec clip| ≤ 2 ^ 53 - 1

variable {c : CJson} {d : Dialect} {z : Zlib}

theorem artifactPath_eq {src session path : Bytes}
    (built : artifactPath src session = some path) :
    path = src ++ ascii "/" ++ (session ++ ascii ".bin") := by
  simp only [artifactPath, lpBuildArtifactPath] at built
  split_ifs at built
  exact (Option.some.inj built).symm

private theorem forall_path {P : UInt8 → Prop} {src session path : Bytes}
    (built : artifactPath src session = some path) (slash : ∀ b ∈ ascii "/", P b)
    (suffix : ∀ b ∈ ascii ".bin", P b) :
    (∀ b ∈ path, P b) ↔ (∀ b ∈ src, P b) ∧ ∀ b ∈ session, P b := by
  simp only [artifactPath_eq built, List.forall_mem_append]
  tauto

theorem stripLine_object {body : Bytes} (nulFree : nul ∉ 123 :: (body ++ [125])) :
    stripLine (123 :: (body ++ [125]) ++ [lf]) = 123 :: (body ++ [125]) := by
  have close125 : (125 == lf || 125 == cr) = false := rfl
  rw [stripLine, cstr_object_line nulFree]
  simp [close125]

theorem clipRecord_eq {line session : Bytes} {ts : Int}
    {members : List (Bytes × JsonValue)} (stripped : stripLine (line ++ [lf]) = line)
    (nulFree : nul ∉ session) (object : parseObject c line = some members)
    (sessionRead : getItem members (ascii "session_id") = some (.string session))
    (tsRead : getItem members (ascii "ts") = some (.number ts)) :
    clipRecord c (line ++ [lf]) =
      if session.length < 128 ∧ |ts| ≤ 2 ^ 53 - 1 then some (clipKey session ts, line)
      else none := by
  have range : ((ts : ℚ) < -jsonlMaxSafeInteger ∨ jsonlMaxSafeInteger < (ts : ℚ)) ↔
      ¬ |ts| ≤ 2 ^ 53 - 1 := by
    unfold jsonlMaxSafeInteger
    rw [abs_le, not_and_or, not_le, not_le]
    constructor
    · rintro (low | high)
      · exact .inl (by exact_mod_cast low)
      · exact .inr (by exact_mod_cast high)
    · rintro (low | high)
      · exact .inl (by exact_mod_cast low)
      · exact .inr (by exact_mod_cast high)
  have sessionText : jsonlGetString c line (ascii "session_id") 128 =
      if session.length < 128 then some session else none := by
    simp only [jsonlGetString, object, sessionRead, Option.bind_eq_bind, Option.bind_some,
      cstr_of_nul_free nulFree]
    split_ifs <;> first | rfl | omega
  have tsNumber : jsonlGetInt64 c line (ascii "ts") =
      if |ts| ≤ 2 ^ 53 - 1 then some ts else none := by
    have whole : (ts : ℚ).isInt = true := by simp [Rat.isInt]
    simp only [jsonlGetInt64, object, tsRead, Option.bind_eq_bind, Option.bind_some, range, whole,
      if_true, Rat.num_intCast, ite_not]
  rw [clipRecord, stripped, sessionText, tsNumber]
  split_ifs with short safe both both <;> first | rfl | tauto

section Append

variable {args : Invocation} {ttl : Int} {line key : Bytes}

private theorem appendRun_eq (ttlGiven : parseTtl args.ttlArg = some ttl) (noLf : lf ∉ line)
    (file : Bytes) :
    clipStoreMain c z file { args with mode := .append (line ++ [lf]) } =
      ((appendLoop c z ttl args.clock [line ++ [lf]] 1 file).1,
        ⟨[], (appendLoop c z ttl args.clock [line ++ [lf]] 1 file).2⟩) := by
  simp only [clipStoreMain, ttlGiven, pieces_line noLf]

private theorem not_found_of_skipped (ttlGiven : parseTtl args.ttlArg = some ttl)
    (noLf : lf ∉ line) (skipped : clipRecord c (line ++ [lf]) = none) :
    ¬ FoundAfterAppend c z args line key := by
  intro found
  obtain ⟨file', expireAt, run, lookup⟩ := found [] (.inl rfl)
  rw [appendRun_eq ttlGiven noLf] at run
  simp only [appendLoop, skipped, Prod.mk.injEq] at run
  rw [← run.1, loadLatestRow_eq] at lookup
  cases lookup

private theorem found_iff_of_recorded (ttlGiven : parseTtl args.ttlArg = some ttl)
    (long : IsLong (expireAt ttl (args.clock 1))) (noLf : lf ∉ line) (nulFree : nul ∉ line)
    (compresses : (z.compress line).isSome)
    (recorded : clipRecord c (line ++ [lf]) = some (key, line)) :
    FoundAfterAppend c z args line key ↔ ∀ b ∈ key, FieldByte b := by
  constructor
  · intro found
    obtain ⟨file', expireAt, _, lookup⟩ := found [] (.inl rfl)
    by_contra unclean
    rw [loadLatestRow_eq, latestRow_of_unclean unclean] at lookup
    cases lookup
  · intro clean file closed
    obtain ⟨stored, written⟩ : ∃ stored, storedValue z line = some stored := by
      obtain ⟨comp, compressed⟩ := Option.isSome_iff_exists.mp compresses
      unfold storedValue
      split_ifs
      · exact ⟨[], rfl⟩
      · exact ⟨90 :: 58 :: Lib.Base64.encodePadded comp, by rw [compressed]; rfl⟩
    obtain ⟨file', appended⟩ : ∃ file',
        appendDbRow z file key line (expireAt ttl (args.clock 1)) = some file' :=
      ⟨_, by rw [appendDbRow_eq, written]; rfl⟩
    have storable : Storable ⟨key, line, expireAt ttl (args.clock 1)⟩ := ⟨clean, nulFree, long⟩
    have rows := (dbRows_appendDbRow closed storable appended).1
    refine ⟨file', expireAt ttl (args.clock 1), ?_, ?_⟩
    · rw [appendRun_eq ttlGiven noLf]
      simp only [appendLoop, recorded, appended]
    · rw [loadLatestRow_eq, latestRow, rows, lastWrite_concat, if_pos rfl]

end Append

private theorem clipKey_clean {session : Bytes} (nulFree : nul ∉ session) (noLf : lf ∉ session)
    (ts : Int) : (∀ b ∈ clipKey session ts, FieldByte b) ↔ tab ∉ session ∧ cr ∉ session := by
  rw [clipKey_clean_iff, fieldBytes_iff, and_iff_right nulFree, and_iff_right noLf]

theorem plain_path_iff {src session path : Bytes}
    (built : artifactPath src session = some path) :
    (∀ b ∈ path, Plain d b ∧ b ≠ lf) ↔
      (∀ b ∈ src, Plain d b ∧ b ≠ lf) ∧ ∀ b ∈ session, Plain d b ∧ b ≠ lf :=
  forall_path built
    (fun b mem => ⟨plain_of_visible (s := ascii "/") (by decide) b mem,
      by rintro rfl; revert mem; decide⟩)
    (fun b mem => ⟨plain_of_visible (s := ascii ".bin") (by decide) b mem,
      by rintro rfl; revert mem; decide⟩)

private theorem parseObject_some (correct : c.IsCorrect d) {line : Bytes}
    {members : List (Bytes × JsonValue)} (object : parseObject c line = some members) :
    ∃ rest, parseText d line = some (.object members, rest) := by
  rw [parseObject, correct.parses] at object
  split at object
  · rename_i parsed
    split_ifs at object
    cases object
    exact ⟨_, parsed⟩
  · cases object

section ClipLine

variable {args : Invocation} {ttl : Int} {clip : SmClipRecord} {session path : Bytes}
  {complete : Bool} {texts items : List Bytes}

theorem clipLine_fields (correct : c.IsCorrect d) (sessionPlain : ∀ b ∈ session, Plain d b)
    (pathPlain : ∀ b ∈ path, Plain d b) (safe : |tsSec clip| ≤ 2 ^ 53 - 1)
    (strings : List.Forall₂ (WrittenString d) texts items) :
    ∃ members, parseObject c (clipLine clip session path complete texts) = some members ∧
      getItem members (ascii "session_id") = some (.string session) ∧
      getItem members (ascii "path") = some (.string path) ∧
      getItem members (ascii "ts") = some (.number (tsSec clip)) ∧
      getItem members (ascii "type") = some (.string (ascii "clip")) := by
  obtain ⟨more, parsed⟩ := clipLine_parsed clip complete sessionPlain pathPlain strings
  have exact : d.round (tsSec clip) = tsSec clip := d.round_integer _ (by omega)
  refine ⟨clipEntries d clip session path complete ++ more, ?_, rfl, rfl, ?_, rfl⟩
  · simp [parseObject, correct.parses, parsed]
  · rw [← exact]
    rfl

theorem clipLine_passes (nulFree : nul ∉ clipLine clip session path complete texts)
    (noLf : lf ∉ clipLine clip session path complete texts) {members : List (Bytes × JsonValue)}
    (object : parseObject c (clipLine clip session path complete texts) = some members)
    (type : getItem members (ascii "type") = some (.string (ascii "clip"))) :
    (jsonlMode c typeClipFilter (clipLine clip session path complete texts ++ [lf])).1 =
      clipLine clip session path complete texts ++ [lf] := by
  have filter : typeClipFilter = some ⟨ascii "type", ascii "clip", .equals⟩ := rfl
  have trimmed : trimLine (clipLine clip session path complete texts ++ [lf]) =
      clipLine clip session path complete texts := trimLine_object nulFree
  have isObject : jsonlIsObject c (clipLine clip session path complete texts) = true := by
    simp [jsonlIsObject, object]
  have text : jsonlGetScalarText c (clipLine clip session path complete texts) (ascii "type") 1024 =
      some (ascii "clip") := by
    rw [jsonlGetScalarText, object]
    simp only [Option.bind_eq_bind, Option.bind_some, type]
    rfl
  have matched : logFilterMatchJsonl c (clipLine clip session path complete texts)
      typeClipFilter = some true := by
    simp [logFilterMatchJsonl, isObject, filter, text]
  simp [jsonlMode, pieces_line noLf, jsonlLine, trimmed, matched]

theorem nul_not_mem_clipLine (sessionNulFree : nul ∉ session) (pathNulFree : nul ∉ path)
    (strings : List.Forall₂ (WrittenString d) texts items) :
    nul ∉ clipLine clip session path complete texts := by
  intro mem
  rcases clipLine_bytes clip session path complete strings nul mem with here | here | visible
  · exact sessionNulFree here
  · exact pathNulFree here
  · exact absurd visible (by decide)

/-- Session id and path need no escaping, and the key fits. -/
private def Fits (d : Dialect) (clip : SmClipRecord) (session path : Bytes) : Prop :=
  ((∀ b ∈ session, Plain d b ∧ b ≠ lf) ∧ ∀ b ∈ path, Plain d b ∧ b ≠ lf) ∧
    (tab ∉ session ∧ cr ∉ session) ∧ session.length < 128 ∧ |tsSec clip| ≤ 2 ^ 53 - 1

section Acceptance

variable (correct : c.IsCorrect d) (ttlGiven : parseTtl args.ttlArg = some ttl)
  (long : IsLong (expireAt ttl (args.clock 1)))
  (sessionNulFree : nul ∉ session) (pathNulFree : nul ∉ path)
  (strings : List.Forall₂ (WrittenString d) texts items)
  (compresses : (z.compress (clipLine clip session path complete texts)).isSome)

include correct ttlGiven long sessionNulFree pathNulFree strings compresses

private theorem fits_of_accepted
    (accepted : LineAccepted c z args clip session path
      (clipLine clip session path complete texts)) : Fits d clip session path := by
  obtain ⟨single, ⟨members, object, sessionRead, pathRead, tsRead⟩, _, stored⟩ := accepted
  have nulFree : nul ∉ clipLine clip session path complete texts :=
    nul_not_mem_clipLine sessionNulFree pathNulFree strings
  obtain ⟨rest, parsed⟩ := parseObject_some correct object
  obtain ⟨sessionPlain, pathPlain⟩ :=
    plain_of_clipLine_read clip complete texts parsed sessionRead pathRead
  have sessionMember : (ascii "session_id", quoted session) ∈
      clipMembers clip session path complete ++ eventMembers texts := by simp [clipMembers]
  have pathMember : (ascii "path", quoted path) ∈
      clipMembers clip session path complete ++ eventMembers texts := by simp [clipMembers]
  have sessionLf : lf ∉ session := by
    intro mem
    exact single (mem_objectText sessionMember (by simp [quoted, mem]))
  have pathLf : lf ∉ path := by
    intro mem
    exact single (mem_objectText pathMember (by simp [quoted, mem]))
  have recorded :=
    clipRecord_eq (stripLine_object nulFree) sessionNulFree object sessionRead tsRead
  refine ⟨⟨?_, ?_⟩, ?_⟩
  · intro b mem
    exact ⟨sessionPlain b mem, fun h => sessionLf (h ▸ mem)⟩
  · intro b mem
    exact ⟨pathPlain b mem, fun h => pathLf (h ▸ mem)⟩
  split_ifs at recorded with fits
  · have clean :=
      (found_iff_of_recorded ttlGiven long single nulFree compresses recorded).mp stored
    exact ⟨(clipKey_clean sessionNulFree sessionLf _).mp clean, fits⟩
  · exact absurd stored (not_found_of_skipped ttlGiven single recorded)

private theorem accepted_of_fits (fits : Fits d clip session path) :
    LineAccepted c z args clip session path (clipLine clip session path complete texts) := by
  obtain ⟨⟨sessionClean, pathClean⟩, field, short, safe⟩ := fits
  have nulFree : nul ∉ clipLine clip session path complete texts :=
    nul_not_mem_clipLine sessionNulFree pathNulFree strings
  have sessionLf : lf ∉ session := fun mem => (sessionClean lf mem).2 rfl
  have single : lf ∉ clipLine clip session path complete texts := by
    intro mem
    rcases clipLine_bytes clip session path complete strings lf mem with here | here | visible
    · exact sessionLf here
    · exact (pathClean lf here).2 rfl
    · exact absurd visible (by decide)
  obtain ⟨members, (object : parseObject c (clipLine clip session path complete texts) = _),
    sessionRead, pathRead, tsRead, type⟩ := clipLine_fields correct
      (fun b mem => (sessionClean b mem).1) (fun b mem => (pathClean b mem).1) safe strings
  have recorded :=
    clipRecord_eq (stripLine_object nulFree) sessionNulFree object sessionRead tsRead
  rw [if_pos ⟨short, safe⟩] at recorded
  exact ⟨single, ⟨members, object, sessionRead, pathRead, tsRead⟩,
    clipLine_passes nulFree single object type,
    (found_iff_of_recorded ttlGiven long single nulFree compresses recorded).mpr
      ((clipKey_clean sessionNulFree sessionLf _).mpr field)⟩

end Acceptance

end ClipLine

/-- What is printed for an active clip is taken by the filter and the clip store as meant if
and only if session id and source directory need no escaping and the key fits. -/
theorem emitClip_accepted_iff (correct : c.IsCorrect d) {args : Invocation} {ttl : Int}
    (ttlGiven : parseTtl args.ttlArg = some ttl) (long : IsLong (expireAt ttl (args.clock 1)))
    {clip : SmClipRecord} (active : clip.active = true) {src session out : Bytes}
    (srcNulFree : nul ∉ src) (sessionNulFree : nul ∉ session) {complete : Bool}
    (printed : emitClip c clip src session complete = some out)
    (compresses : (z.compress out.dropLast).isSome) :
    AcceptedDownstream c z args clip src session out ↔ FitsUnescaped d clip src session := by
  obtain ⟨path, built⟩ : ∃ path, artifactPath src session = some path := by
    cases built : artifactPath src session with
    | none => simp [emitClip, active, built] at printed
    | some path => exact ⟨path, rfl⟩
  obtain ⟨texts, line, strings⟩ := emitClip_eq correct active built complete
  obtain rfl := Option.some.inj (printed.symm.trans line)
  have pathNulFree : nul ∉ path := by
    rw [artifactPath_eq built]
    simp only [List.mem_append, not_or]
    exact ⟨⟨srcNulFree, by decide⟩, sessionNulFree, by decide⟩
  rw [List.dropLast_concat] at compresses
  have accepted : LineAccepted c z args clip session path
      (clipLine clip session path complete texts) ↔ Fits d clip session path :=
    ⟨fits_of_accepted correct ttlGiven long sessionNulFree pathNulFree strings compresses,
      accepted_of_fits correct ttlGiven long sessionNulFree pathNulFree strings compresses⟩
  rw [Fits, plain_path_iff built] at accepted
  constructor
  · rintro ⟨_, _, sameBuilt, sameLine, taken⟩
    obtain rfl := Option.some.inj (built.symm.trans sameBuilt)
    obtain rfl := List.append_cancel_right sameLine
    obtain ⟨⟨sessionClean, srcClean, _⟩, field, short, safe⟩ := accepted.mp taken
    exact ⟨List.forall_mem_append.mpr ⟨srcClean, sessionClean⟩, field, short, safe⟩
  · rintro ⟨plain, field, short, safe⟩
    obtain ⟨srcClean, sessionClean⟩ := List.forall_mem_append.mp plain
    exact ⟨path, _, built, rfl,
      accepted.mpr ⟨⟨sessionClean, srcClean, sessionClean⟩, field, short, safe⟩⟩

/-- A clip of four bytes that starts in second 7 and carries one tag. -/
def taggedClip : SmClipRecord where
  active := true
  startTsMs := 7250
  endTsMs := 7500
  startOffset := 16
  totalLength := 4
  boundaryMode := .metadata
  events := ⟨[ascii "a\"b"], by decide, by decide, by decide⟩

def defaultAppend : Invocation := ⟨ascii "clips.db", ascii "3600", .append [], fun _ => 100⟩

/-- The clip of the session `cam` in the directory `/d`. -/
theorem emitClip_accepted_cam :
    ∃ out, emitClip (.ofDialect exactDialect) taggedClip (ascii "/d") (ascii "cam") true =
        some out ∧
      (AcceptedDownstream (.ofDialect exactDialect) storedZlib defaultAppend taggedClip
          (ascii "/d") (ascii "cam") out ↔
        FitsUnescaped exactDialect taggedClip (ascii "/d") (ascii "cam")) :=
  ⟨(emitClip (.ofDialect exactDialect) taggedClip (ascii "/d") (ascii "cam") true).getD [],
    by decide +kernel,
    emitClip_accepted_iff (CJson.ofDialect_isCorrect exactDialect)
      (show parseTtl defaultAppend.ttlArg = some 3600 by decide +kernel) (by decide)
      rfl (by decide) (by decide)
      (show emitClip (.ofDialect exactDialect) taggedClip (ascii "/d") (ascii "cam") true =
        some _ by decide +kernel) (by decide +kernel)⟩

/-- A quote in the session id ends its string: the line is no object any more, the filter
drops it and append mode skips it. -/
theorem emitClip_quote_not_accepted :
    ∃ line, emitClip (.ofDialect exactDialect) taggedClip (ascii "/d") (ascii "a\"b") true =
        some (line ++ [lf]) ∧
      ¬ AcceptedDownstream (.ofDialect exactDialect) storedZlib defaultAppend taggedClip
        (ascii "/d") (ascii "a\"b") (line ++ [lf]) ∧
      jsonlMode (.ofDialect exactDialect) typeClipFilter (line ++ [lf]) = ([], []) ∧
      clipRecord (.ofDialect exactDialect) (line ++ [lf]) = none := by
  refine ⟨((emitClip (.ofDialect exactDialect) taggedClip (ascii "/d") (ascii "a\"b")
    true).getD []).dropLast, by decide +kernel, ?_, by decide +kernel, by decide +kernel⟩
  rintro ⟨path, line, _, sameLine, taken⟩
  obtain rfl := List.append_cancel_right sameLine
  obtain ⟨members, object, _⟩ := taken.fields
  have broken : (parseObject (.ofDialect exactDialect) ((emitClip (.ofDialect exactDialect)
    taggedClip (ascii "/d") (ascii "a\"b") true).getD []).dropLast).isNone = true := by
    decide +kernel
  rw [object] at broken
  cases broken

end StreamDataPipeline.Pipeline.ClipAccepted
