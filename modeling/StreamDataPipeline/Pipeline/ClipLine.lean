/- What log_parse and clip_store make of a clip line that stream_merge prints. -/

import Mathlib.Data.List.Forall2
import StreamDataPipeline.Foundations.JsonUnescaped
import StreamDataPipeline.ClipStore.Main
import StreamDataPipeline.LogParse.JsonlMode
import StreamDataPipeline.StreamMerge.EmitClip

/-!
The line is an object text whose session id and path stand between quotes without
escaping. It is read back as meant exactly when their bytes are plain.
-/

set_option autoImplicit false
set_option relaxedAutoImplicit false

namespace StreamDataPipeline.Pipeline.ClipLine

open Foundations.ByteString Foundations.Decimal Foundations.Lines Foundations.Json
  Foundations.JsonText Foundations.JsonUnescaped
open Lib.JsonlCodec Lib.Libpipeline LogParse.FilterExpr LogParse.JsonlMode
open StreamMerge.Events StreamMerge.Fsm StreamMerge.EmitClip ClipStore.Main

/-- The members of the object in front of the events, with the texts of their values. -/
def clipMembers (clip : SmClipRecord) (session path : Bytes) (complete : Bool) :
    List (Bytes × Bytes) :=
  [(ascii "type", quoted (ascii "clip")),
    (ascii "session_id", quoted session),
    (ascii "ts", decimal (tsSec clip)),
    (ascii "path", quoted path),
    (ascii "offset", decimal clip.startOffset),
    (ascii "length", decimal clip.totalLength),
    (ascii "start_ts_ms", decimal clip.startTsMs),
    (ascii "end_ts_ms", decimal clip.endTsMs),
    (ascii "duration_ms", decimal (clip.endTsMs - clip.startTsMs)),
    (ascii "boundary_mode", quoted (boundaryModeName clip.boundaryMode)),
    (ascii "complete", if complete then ascii "true" else ascii "false")]

/-- The member of the events, where there are any. -/
def eventMembers (texts : List Bytes) : List (Bytes × Bytes) :=
  if texts = [] then [] else [(ascii "events", arrayText texts)]

def clipLine (clip : SmClipRecord) (session path : Bytes) (complete : Bool)
    (texts : List Bytes) : Bytes :=
  objectText (clipMembers clip session path complete ++ eventMembers texts)

private theorem clipHead_eq (clip : SmClipRecord) (session path : Bytes) (complete : Bool) :
    clipHead clip session path complete =
      123 :: commaSeparated ((clipMembers clip session path complete).map memberText) := by
  have type : ascii "\x7b\"type\":\"clip\"," =
      123 :: quote :: (ascii "type" ++ [quote, 58, quote] ++ ascii "clip" ++ [quote, 44]) := rfl
  have session_id : ascii "\"session_id\":\"" =
      quote :: (ascii "session_id" ++ [quote, 58, quote]) := rfl
  have ts : ascii "\"ts\":" = quote :: (ascii "ts" ++ [quote, 58]) := rfl
  have pathKey : ascii "\"path\":\"" = quote :: (ascii "path" ++ [quote, 58, quote]) := rfl
  have offset : ascii "\"offset\":" = quote :: (ascii "offset" ++ [quote, 58]) := rfl
  have length : ascii "\"length\":" = quote :: (ascii "length" ++ [quote, 58]) := rfl
  have start : ascii "\"start_ts_ms\":" = quote :: (ascii "start_ts_ms" ++ [quote, 58]) := rfl
  have stop : ascii "\"end_ts_ms\":" = quote :: (ascii "end_ts_ms" ++ [quote, 58]) := rfl
  have duration : ascii "\"duration_ms\":" = quote :: (ascii "duration_ms" ++ [quote, 58]) := rfl
  have mode : ascii "\"boundary_mode\":\"" =
      quote :: (ascii "boundary_mode" ++ [quote, 58, quote]) := rfl
  have done : ascii "\"complete\":" = quote :: (ascii "complete" ++ [quote, 58]) := rfl
  have closed : ascii "\"," = [quote, 44] := rfl
  have comma : ascii "," = [44] := rfl
  simp only [clipHead, clipMembers, commaSeparated, memberText, quoted, List.map_cons,
    List.map_nil, type, session_id, ts, pathKey, offset, length, start, stop, duration, mode,
    done, closed, comma, List.cons_append, List.nil_append, List.append_assoc]

variable {c : CJson} {d : Dialect}

/-- The text of a string that the codec wrote. -/
def WrittenString (d : Dialect) (text value : Bytes) : Prop :=
  Reads d text (.string (cstr value)) ∧ ∀ b ∈ text, 32 ≤ b

private theorem jsonlWriteString_text (correct : c.IsCorrect d) (buf value : Bytes) :
    ∃ text, jsonlWriteString c buf value = some (buf ++ text) ∧ WrittenString d text value := by
  obtain ⟨body, written, printable, read⟩ := jsonlWriteString_quoted correct buf value
  exact ⟨quoted body, written, reads_string read, quoted_bytes (fun _ ge => ge) printable⟩

private theorem appendItems_texts (correct : c.IsCorrect d) (out : Bytes) (items : List Bytes) :
    ∃ texts, appendItems c out items = some (out ++ texts.flatMap (44 :: ·)) ∧
      List.Forall₂ (WrittenString d) texts items := by
  induction items generalizing out with
  | nil => exact ⟨[], by simp [appendItems], .nil⟩
  | cons item items ih =>
      obtain ⟨text, written, first⟩ := jsonlWriteString_text correct (out ++ ascii ",") item
      obtain ⟨texts, rest, later⟩ := ih (out ++ ascii "," ++ text)
      refine ⟨text :: texts, ?_, .cons first later⟩
      have comma : ascii "," = [44] := rfl
      rw [appendItems, written, Option.bind_eq_bind, Option.bind_some, rest, comma]
      simp

private theorem smEventSetAppendJson_texts (correct : c.IsCorrect d) (set : SmEventSet) :
    ∃ texts, smEventSetAppendJson c set [] = some (arrayText texts) ∧
      List.Forall₂ (WrittenString d) texts set.items := by
  have opened : ascii "[" = [91] := rfl
  have closed : ascii "]" = [93] := rfl
  cases items : set.items with
  | nil => exact ⟨[], by simp [smEventSetAppendJson, items, opened, closed, arrayText,
      commaSeparated], .nil⟩
  | cons item rest =>
      obtain ⟨text, written, first⟩ := jsonlWriteString_text correct [91] item
      obtain ⟨texts, appended, later⟩ := appendItems_texts correct (91 :: text) rest
      refine ⟨text :: texts, ?_, .cons first later⟩
      simp only [smEventSetAppendJson, items, opened, closed, List.nil_append, written, appended,
        Option.bind_eq_bind, Option.bind_some, Option.pure_def, arrayText, commaSeparated_flatMap,
        List.cons_append]

theorem emitClip_eq (correct : c.IsCorrect d) {clip : SmClipRecord} (active : clip.active = true)
    {src session path : Bytes} (built : artifactPath src session = some path) (complete : Bool) :
    ∃ texts, emitClip c clip src session complete =
        some (clipLine clip session path complete texts ++ [lf]) ∧
      List.Forall₂ (WrittenString d) texts clip.events.items := by
  obtain ⟨texts, written, strings⟩ := smEventSetAppendJson_texts correct clip.events
  have count : clip.events.count = texts.length := strings.length_eq.symm
  have events : ascii ",\"events\":" = 44 :: quote :: (ascii "events" ++ [quote, 58]) := rfl
  have ending : ascii "\x7d\n" = [125, lf] := rfl
  refine ⟨texts, ?_, strings⟩
  have running : (!clip.active) = false := by rw [active]; rfl
  rw [emitClip, running]
  simp only [Bool.false_eq_true, if_false, built, count, written, Option.map_some,
    Option.bind_eq_bind, Option.bind_some, Option.pure_def, clipHead_eq, ending]
  by_cases empty : texts = []
  · simp [empty, clipLine, eventMembers, objectText]
  · have positive : 0 < texts.length := List.length_pos_iff.mpr empty
    obtain ⟨first, members, shape⟩ : ∃ first members,
        clipMembers clip session path complete = first :: members := ⟨_, _, rfl⟩
    simp only [if_pos positive, clipLine, eventMembers, if_neg empty, shape]
    rw [objectText, List.map_append, List.map_cons, List.map_cons, List.map_nil,
      commaSeparated_concat, events]
    simp [memberText, quoted]

/-- The members that are read back when session id and path are plain. -/
def clipEntries (d : Dialect) (clip : SmClipRecord) (session path : Bytes) (complete : Bool) :
    List (Bytes × JsonValue) :=
  [(ascii "type", .string (ascii "clip")),
    (ascii "session_id", .string session),
    (ascii "ts", .number (d.round (tsSec clip))),
    (ascii "path", .string path),
    (ascii "offset", .number (d.round (clip.startOffset : Int))),
    (ascii "length", .number (d.round (clip.totalLength : Int))),
    (ascii "start_ts_ms", .number (d.round clip.startTsMs)),
    (ascii "end_ts_ms", .number (d.round clip.endTsMs)),
    (ascii "duration_ms", .number (d.round ((clip.endTsMs - clip.startTsMs : Int)))),
    (ascii "boundary_mode", .string (boundaryModeName clip.boundaryMode)),
    (ascii "complete", .bool complete)]

private theorem clipMembers_names (clip : SmClipRecord) (session path : Bytes) (complete : Bool) :
    ∀ member ∈ clipMembers clip session path complete,
      ∀ b ∈ member.1, b ≠ quote ∧ b ≠ backslash ∧ 32 ≤ b := by
  simp only [clipMembers, List.forall_mem_cons]
  decide

private theorem boundaryModeName_visible (mode : SmBoundaryMode) :
    ∀ b ∈ boundaryModeName mode, b ≠ quote ∧ b ≠ backslash ∧ 32 ≤ b := by
  cases mode <;> decide

theorem clipMembers_read (clip : SmClipRecord) {session path : Bytes} (complete : Bool)
    (sessionPlain : ∀ b ∈ session, Plain d b) (pathPlain : ∀ b ∈ path, Plain d b) :
    List.Forall₂ (MemberReads d) (clipMembers clip session path complete)
      (clipEntries d clip session path complete) := by
  have mode : ∀ b ∈ boundaryModeName clip.boundaryMode, Plain d b :=
    plain_of_visible (boundaryModeName_visible clip.boundaryMode)
  have values : List.Forall₂ (fun member entry => entry.1 = member.1 ∧ Reads d member.2 entry.2)
      (clipMembers clip session path complete) (clipEntries d clip session path complete) := by
    apply List.Forall₂.cons ⟨rfl, reads_quoted (plain_of_visible (by decide))⟩
    apply List.Forall₂.cons ⟨rfl, reads_quoted sessionPlain⟩
    apply List.Forall₂.cons ⟨rfl, reads_decimal (tsSec clip)⟩
    apply List.Forall₂.cons ⟨rfl, reads_quoted pathPlain⟩
    apply List.Forall₂.cons ⟨rfl, reads_decimal clip.startOffset⟩
    apply List.Forall₂.cons ⟨rfl, reads_decimal clip.totalLength⟩
    apply List.Forall₂.cons ⟨rfl, reads_decimal clip.startTsMs⟩
    apply List.Forall₂.cons ⟨rfl, reads_decimal clip.endTsMs⟩
    apply List.Forall₂.cons ⟨rfl, reads_decimal (clip.endTsMs - clip.startTsMs)⟩
    apply List.Forall₂.cons ⟨rfl, reads_quoted mode⟩
    exact .cons ⟨rfl, reads_bool complete⟩ .nil
  have names : ∀ member ∈ clipMembers clip session path complete, ∀ b ∈ member.1, Plain d b :=
    fun member mem => plain_of_visible (clipMembers_names clip session path complete member mem)
  apply ((List.forall₂_and_left _ _).mpr ⟨names, values⟩).imp
  intro member entry both
  exact ⟨both.2.1, both.1, both.2.2⟩

private theorem eventMembers_read {texts items : List Bytes}
    (strings : List.Forall₂ (WrittenString d) texts items) :
    ∃ entries, List.Forall₂ (MemberReads d) (eventMembers texts) entries := by
  unfold eventMembers
  split_ifs
  · exact ⟨[], .nil⟩
  · have values : List.Forall₂ (Reads d) texts (items.map fun item => .string (cstr item)) :=
      List.forall₂_map_right_iff.mpr (strings.imp fun _ _ written => written.1)
    exact ⟨[(ascii "events", .array (items.map fun item => .string (cstr item)))],
      .cons ⟨rfl, plain_of_visible (s := ascii "events") (by decide),
        reads_array values⟩ .nil⟩

/-- With a plain session id and path the line is read back member by member. -/
theorem clipLine_parsed (clip : SmClipRecord) {session path : Bytes} (complete : Bool)
    (sessionPlain : ∀ b ∈ session, Plain d b) (pathPlain : ∀ b ∈ path, Plain d b)
    {texts items : List Bytes} (strings : List.Forall₂ (WrittenString d) texts items) :
    ∃ more, parseText d (clipLine clip session path complete texts) =
      some (.object (clipEntries d clip session path complete ++ more), []) := by
  obtain ⟨more, events⟩ := eventMembers_read strings
  have members := List.rel_append (clipMembers_read clip complete sessionPlain pathPlain) events
  exact ⟨more, (reads_object members).parseText⟩

private theorem written_visible {texts items : List Bytes}
    (strings : List.Forall₂ (WrittenString d) texts items) :
    ∀ text ∈ texts, ∀ b ∈ text, 32 ≤ b := by
  induction strings with
  | nil => simp
  | cons written _ ih => exact List.forall_mem_cons.mpr ⟨written.2, ih⟩

theorem clipLine_bytes (clip : SmClipRecord) (session path : Bytes) (complete : Bool)
    {texts items : List Bytes} (strings : List.Forall₂ (WrittenString d) texts items) :
    ∀ b ∈ clipLine clip session path complete texts, b ∈ session ∨ b ∈ path ∨ 32 ≤ b := by
  have visible : ∀ b : UInt8, 32 ≤ b → b ∈ session ∨ b ∈ path ∨ 32 ≤ b := fun _ ge => .inr (.inr ge)
  have literal {s : Bytes} (ge : ∀ b ∈ s, 32 ≤ b) :
      ∀ b ∈ s, b ∈ session ∨ b ∈ path ∨ 32 ≤ b := fun b mem => visible b (ge b mem)
  have numeral (v : Int) : ∀ b ∈ decimal v, b ∈ session ∨ b ∈ path ∨ 32 ≤ b := by
    refine literal fun b mem => ?_
    rcases decimal_chars v b mem with digit | rfl
    · simp only [isDigit, Bool.and_eq_true, decide_eq_true_eq, UInt8.le_iff_toNat_le] at digit
      exact UInt8.le_iff_toNat_le.mpr (le_trans (by decide) digit.1)
    · decide
  have mode : ∀ b ∈ boundaryModeName clip.boundaryMode, 32 ≤ b := fun b mem =>
    (boundaryModeName_visible clip.boundaryMode b mem).2.2
  have truth : ∀ b ∈ (if complete then ascii "true" else ascii "false"), 32 ≤ b := by
    cases complete <;> decide
  have values : ∀ member ∈ clipMembers clip session path complete,
      ∀ b ∈ member.2, b ∈ session ∨ b ∈ path ∨ 32 ≤ b := by
    simp only [clipMembers, List.forall_mem_cons]
    exact ⟨quoted_bytes visible (literal (by decide)), quoted_bytes visible fun b mem => .inl mem,
      numeral _, quoted_bytes visible fun b mem => .inr (.inl mem), numeral _, numeral _,
      numeral _, numeral _, numeral _, quoted_bytes visible (literal mode), literal truth, by simp⟩
  apply objectText_bytes visible (List.forall_mem_append.mpr ⟨?_, ?_⟩)
  · intro member mem
    have name := clipMembers_names clip session path complete member mem
    exact ⟨literal fun b here => (name b here).2.2, values member mem⟩
  · intro member found
    unfold eventMembers at found
    split_ifs at found
    · cases found
    · obtain rfl := List.mem_singleton.mp found
      exact ⟨literal (s := ascii "events") (by decide),
        arrayText_bytes visible fun text listed => literal (written_visible strings text listed)⟩

private theorem clipLine_front (clip : SmClipRecord) (session path : Bytes) (complete : Bool)
    (texts : List Bytes) :
    ∃ more, clipLine clip session path complete texts =
      123 :: (memberText (ascii "type", quoted (ascii "clip")) ++
        44 :: (memberText (ascii "session_id", quoted session) ++
          44 :: (memberText (ascii "ts", decimal (tsSec clip)) ++
            44 :: (memberText (ascii "path", quoted path) ++ 44 :: quote :: more)))) := by
  simp only [clipLine, objectText, clipMembers, List.map_append, List.map_cons, List.cons_append,
    commaSeparated_cons, List.append_assoc]
  exact ⟨_, rfl⟩

/-- A reading of the line that gives back session id and path takes them as plain bytes. -/
theorem plain_of_clipLine_read (clip : SmClipRecord) {session path : Bytes} (complete : Bool)
    (texts : List Bytes) {members : List (Bytes × JsonValue)} {rest : Bytes}
    (parsed : parseText d (clipLine clip session path complete texts) =
      some (.object members, rest))
    (sessionRead : getItem members (ascii "session_id") = some (.string session))
    (pathRead : getItem members (ascii "path") = some (.string path)) :
    (∀ b ∈ session, Plain d b) ∧ ∀ b ∈ path, Plain d b := by
  obtain ⟨more, shape⟩ := clipLine_front clip session path complete texts
  rw [shape, parseText, parseValue_brace rfl, Option.map_eq_some_iff] at parsed
  obtain ⟨⟨all, after⟩, parsed, equal⟩ := parsed
  cases equal
  have long : (quoted (ascii "clip")).length + (quoted session).length +
      (decimal (tsSec clip)).length + 3 < (123 :: (memberText (ascii "type", quoted (ascii "clip"))
        ++ 44 :: (memberText (ascii "session_id", quoted session) ++
          44 :: (memberText (ascii "ts", decimal (tsSec clip)) ++
            44 :: (memberText (ascii "path", quoted path) ++ 44 :: quote :: more))))).length := by
    simp only [memberText, List.length_cons, List.length_append]
    omega
  obtain ⟨fuel, enough⟩ := Nat.exists_eq_add_of_lt long
  have turns : (quoted (ascii "clip")).length + (quoted session).length +
      (decimal (tsSec clip)).length + 3 + fuel + 1 =
        (quoted (ascii "clip")).length + (quoted session).length +
          (decimal (tsSec clip)).length + fuel + 1 + 1 + 1 + 1 := by omega
  rw [enough, turns] at parsed
  obtain ⟨_, fromSession, rfl⟩ := parseMembers_behind (plain_of_visible (by decide))
    (reads_quoted (plain_of_visible (by decide))) (by omega) parsed
  -- the second member is the session id: a value read back as meant was plain
  obtain ⟨_, read, _, _, string, equal⟩ :=
    parseMembers_unescaped (plain_of_visible (by decide)) fromSession
  have same : read = session := by
    rw [equal] at sessionRead
    simpa using show some (JsonValue.string read) = some (.string session) from sessionRead
  have sessionPlain : ∀ b ∈ session, Plain d b := plain_of_read_back (same ▸ string)
  refine ⟨sessionPlain, ?_⟩
  clear equal
  obtain ⟨_, fromTs, rfl⟩ := parseMembers_behind (plain_of_visible (by decide))
    (reads_quoted sessionPlain) (by omega) fromSession
  obtain ⟨_, fromPath, rfl⟩ := parseMembers_behind (plain_of_visible (by decide))
    (reads_decimal _) (by omega) fromTs
  obtain ⟨_, read, _, _, string, rfl⟩ :=
    parseMembers_unescaped (plain_of_visible (by decide)) fromPath
  have same : read = path := by
    simpa using show some (JsonValue.string read) = some (.string path) from pathRead
  exact plain_of_read_back (same ▸ string)

end StreamDataPipeline.Pipeline.ClipLine
