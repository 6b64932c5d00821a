/- The clip rows that extract_udp_clips.sh reads from a query of the database. -/

import Mathlib.Data.List.Lex
import Mathlib.Data.Prod.Lex
import StreamDataPipeline.Foundations.KeySort
import StreamDataPipeline.Foundations.LastWrite
import StreamDataPipeline.Pipeline.ClipLine
import StreamDataPipeline.Pipeline.PlainClips
import StreamDataPipeline.UdpStream.Datagram

/-!
The output of the query is ASCII text; the texts in its values need not be. `none` is an exit
with an error, and `some none` a row that is skipped.
-/

set_option autoImplicit false
set_option relaxedAutoImplicit false

namespace StreamDataPipeline.UdpStream.ClipRows

open Foundations.ByteString Foundations.Decimal Foundations.Json Foundations.JsonText
  Foundations.KeySort Foundations.LastWrite
open StreamMerge.Fsm StreamMerge.FsmRun StreamMerge.EmitClip Pipeline.ClipLine Pipeline.ClipKeys
  Pipeline.PlainClips ClipStore.Main Datagram

/-- What reading standard output as text makes of the line ends. -/
def universalNewlines : Bytes → Bytes
  | [] => []
  | [b] => [if b = cr then lf else b]
  | b :: next :: rest =>
      if b = cr ∧ next = lf then lf :: universalNewlines rest
      else (if b = cr then lf else b) :: universalNewlines (next :: rest)

/-- The ASCII characters behind which `str.splitlines` cuts. -/
def isLineEnd (b : UInt8) : Bool := (10 ≤ b && b ≤ 13) || (28 ≤ b && b ≤ 30)

def splitlines : Bytes → List Bytes
  | [] => []
  | b :: rest =>
      if isLineEnd b then [] :: splitlines rest
      else match splitlines rest with
        | [] => [[b]]
        | line :: lines => (b :: line) :: lines

/-- What the script uses of a value: `str` of it, whether it is a string, and `int` of it, where
`some none` is an exception that is caught and `none` one that is not. -/
structure PyValue where
  isString : Bool
  str : Bytes
  int : Option (Option Int)

/-- What `json.loads` makes of a line: a JSONDecodeError, a dictionary, or anything else. -/
inductive Loaded
  | refused
  | record (members : List (Bytes × PyValue))
  | other

/-- A printable ASCII character that stands for itself between quotes. -/
def NameByte (b : UInt8) : Prop := b ≠ quote ∧ b ≠ backslash ∧ 32 ≤ b ∧ b < 127

instance decidableNameByte : DecidablePred NameByte := fun _ => instDecidableAnd

def IsName (s : Bytes) : Prop := ∀ b ∈ s, NameByte b

instance decidableIsName : DecidablePred IsName := fun _ => List.decidableBAll _ _

/-- The values that stream_merge writes: strings without escapes, integers and truth values. -/
inductive PlainValue
  | string (s : Bytes)
  | integer (n : Int)
  | bool (b : Bool)

def PlainValue.text : PlainValue → Bytes
  | .string s => quoted s
  | .integer n => decimal n
  | .bool b => if b then ascii "true" else ascii "false"

def PlainValue.Fits : PlainValue → Prop
  | .string s => IsName s
  | .integer n => IsLong n
  | .bool _ => True

/-- The value in Python. -/
def PlainValue.Shows : PlainValue → PyValue → Prop
  | .string s, v => v.isString = true ∧ v.str = s
  | .integer n, v => v.isString = false ∧ v.str = decimal n ∧ v.int = some (some n)
  | .bool _, v => v.isString = false

def EntryShows (member : Bytes × PlainValue) (entry : Bytes × PyValue) : Prop :=
  entry.1 = member.1 ∧ member.2.Shows entry.2

/-- The interpreter: `json.loads`, of which only plain objects are known, and `str.isalnum` of a
character beyond ASCII, which is given by its bytes. -/
structure Python where
  loads : Bytes → Loaded
  isAlnum : Bytes → Bool
  loads_plain : ∀ {members : List (Bytes × PlainValue)},
    (∀ member ∈ members, IsName member.1 ∧ member.2.Fits) →
      ∃ entries, loads (objectText (members.map fun member => (member.1, member.2.text))) =
        .record entries ∧ List.Forall₂ EntryShows members entries

/-- Of several members of one name, a dictionary keeps the last. -/
def getMember (record : List (Bytes × PyValue)) (name : Bytes) : Option PyValue :=
  (lastWrite Prod.fst record name).map Prod.snd

/-- `int(record[name])`, where a missing name raises a KeyError. -/
def memberInt (record : List (Bytes × PyValue)) (name : Bytes) : Option (Option Int) :=
  match getMember record name with
  | none => some none
  | some value => value.int

structure ClipRow where
  session : Bytes
  path : Bytes
  offset : Int
  length : Int
  ts : Int
  tsText : Bytes
  deriving DecidableEq

/-- `int(record.get("ts", 0))`, which nothing catches. -/
def tsOf (record : List (Bytes × PyValue)) : Option Int :=
  match getMember record (ascii "ts") with
  | none => some 0
  | some value => value.int.join

/-- The checks on a record, with the conversions of its fields that come later in the run. -/
def clipRowOf (record : List (Bytes × PyValue)) : Option (Option ClipRow) :=
  if ¬ (getMember record (ascii "type")).any fun type =>
      type.isString && type.str == ascii "clip" then some none
  else do
    match ← memberInt record (ascii "offset") with
    | none => some none
    | some offset =>
        match ← memberInt record (ascii "length") with
        | none => some none
        | some length =>
            match getMember record (ascii "path"), getMember record (ascii "session_id") with
            | some path, some session => do
                let ts ← tsOf record
                let tsText := ((getMember record (ascii "ts")).map PyValue.str).getD (ascii "0")
                if path.isString then
                  some (some ⟨session.str, path.str, offset, length, ts, tsText⟩)
                else none
            | _, _ => some none

def readRow (py : Python) (line : Bytes) : Option (Option ClipRow) :=
  if strip line = [] then some none
  else match strchr tab line with
    | none => some none
    | some (_, value) => match py.loads value with
      | .refused => some none
      | .record record => clipRowOf record
      | .other => none

/-- Strings are ordered by their characters. -/
abbrev SortKey := List Nat ×ₗ List Nat ×ₗ Int ×ₗ Int

def sortKey (row : ClipRow) : SortKey :=
  toLex (row.session.map UInt8.toNat, toLex (row.path.map UInt8.toNat,
    toLex (row.offset, row.ts)))

/-- The records of `query_clip_records` for what the query has printed. -/
def queryClipRecords (py : Python) (stdout : Bytes) : Option (List ClipRow) :=
  ((splitlines (universalNewlines stdout)).mapM (readRow py)).map fun rows =>
    sortBy sortKey (rows.filterMap id)

theorem universalNewlines_plain {s : Bytes} (plain : cr ∉ s) : universalNewlines s = s := by
  induction s using universalNewlines.induct with
  | case1 => rfl
  | case2 b =>
      have other : b ≠ cr := fun same => plain (by simp [same])
      rw [universalNewlines, if_neg other]
  | case3 b next rest ends ih => exact absurd (by simp [ends.1]) plain
  | case4 b next rest apart ih =>
      have other : b ≠ cr := fun same => plain (by simp [same])
      rw [universalNewlines, if_neg apart, if_neg other,
        ih fun mem => plain (List.mem_cons_of_mem b mem)]

theorem splitlines_line {line : Bytes} (inner : ∀ b ∈ line, isLineEnd b = false) (rest : Bytes) :
    splitlines (line ++ lf :: rest) = line :: splitlines rest := by
  induction line with
  | nil => rfl
  | cons b line ih =>
      rw [List.forall_mem_cons] at inner
      rw [List.cons_append, splitlines, inner.1, ih inner.2]
      rfl

theorem splitlines_lines {lines : List Bytes}
    (inner : ∀ line ∈ lines, ∀ b ∈ line, isLineEnd b = false) :
    splitlines (lines.flatMap (· ++ [lf])) = lines := by
  induction lines with
  | nil => rfl
  | cons line lines ih =>
      rw [List.forall_mem_cons] at inner
      rw [List.flatMap_cons, List.append_assoc, List.singleton_append,
        splitlines_line inner.1, ih inner.2]

/-- The row of a clip of a session. -/
def rowOfClip (session path : Bytes) (clip : SmClipRecord) : ClipRow :=
  ⟨session, path, clip.startOffset, clip.totalLength, tsSec clip, decimal (tsSec clip)⟩

def clipValues (clip : SmClipRecord) (session path : Bytes) (complete : Bool) :
    List (Bytes × PlainValue) :=
  [(ascii "type", .string (ascii "clip")),
    (ascii "session_id", .string session),
    (ascii "ts", .integer (tsSec clip)),
    (ascii "path", .string path),
    (ascii "offset", .integer clip.startOffset),
    (ascii "length", .integer clip.totalLength),
    (ascii "start_ts_ms", .integer clip.startTsMs),
    (ascii "end_ts_ms", .integer clip.endTsMs),
    (ascii "duration_ms", .integer (clip.endTsMs - clip.startTsMs)),
    (ascii "boundary_mode", .string (boundaryModeName clip.boundaryMode)),
    (ascii "complete", .bool complete)]

theorem clipLine_values (clip : SmClipRecord) (session path : Bytes) (complete : Bool) :
    clipLine clip session path complete [] = objectText
      ((clipValues clip session path complete).map fun member => (member.1, member.2.text)) := by
  rw [clipLine, eventMembers, if_pos rfl, List.append_nil]
  rfl

section Members

variable {members : List (Bytes × PlainValue)} {entries : List (Bytes × PyValue)}
  (shows_all : List.Forall₂ EntryShows members entries)
include shows_all

theorem shown_names : entries.map Prod.fst = members.map Prod.fst := by
  induction shows_all with
  | nil => rfl
  | cons first _ ih => rw [List.map_cons, List.map_cons, first.1, ih]

theorem exists_shown {name : Bytes} {value : PlainValue} (mem : (name, value) ∈ members) :
    ∃ shown, (name, shown) ∈ entries ∧ value.Shows shown := by
  induction shows_all with
  | nil => cases mem
  | @cons member entry _ _ first _ ih =>
      rcases List.mem_cons.mp mem with rfl | later
      · obtain ⟨key, shown⟩ := entry
        obtain ⟨rfl, here⟩ := first
        exact ⟨shown, List.mem_cons_self, here⟩
      · obtain ⟨shown, there, same⟩ := ih later
        exact ⟨shown, List.mem_cons_of_mem _ there, same⟩

theorem getMember_shows (nodup : (members.map Prod.fst).Nodup) {name : Bytes} {value : PlainValue}
    (mem : (name, value) ∈ members) :
    ∃ shown, getMember entries name = some shown ∧ value.Shows shown := by
  obtain ⟨shown, there, same⟩ := exists_shown shows_all mem
  rw [← shown_names shows_all] at nodup
  exact ⟨shown, by rw [getMember, (lastWrite_of_nodup nodup).mpr ⟨there, rfl⟩]; rfl, same⟩

theorem memberInt_shows (nodup : (members.map Prod.fst).Nodup) {name : Bytes} {n : Int}
    (mem : (name, .integer n) ∈ members) : memberInt entries name = some (some n) := by
  obtain ⟨shown, found, -, -, same⟩ := getMember_shows shows_all nodup mem
  rw [memberInt, found]
  exact same

end Members

section Printed

variable {session path : Bytes} (clip : SmClipRecord) (complete : Bool)

theorem clipRowOf_clipValues {entries : List (Bytes × PyValue)}
    (shows_all : List.Forall₂ EntryShows (clipValues clip session path complete) entries) :
    clipRowOf entries = some (some (rowOfClip session path clip)) := by
  have nodup : ((clipValues clip session path complete).map Prod.fst).Nodup := by
    simp only [clipValues, List.map_cons, List.map_nil]
    decide
  have offset : memberInt entries (ascii "offset") = some (some (clip.startOffset : Int)) :=
    memberInt_shows shows_all nodup (by simp [clipValues])
  have length : memberInt entries (ascii "length") = some (some (clip.totalLength : Int)) :=
    memberInt_shows shows_all nodup (by simp [clipValues])
  have find {name : Bytes} {value : PlainValue}
      (mem : (name, value) ∈ clipValues clip session path complete) :=
    getMember_shows shows_all nodup mem
  obtain ⟨type, hasType, typeString, typeText⟩ :=
    @find (ascii "type") (.string (ascii "clip")) (by simp [clipValues])
  obtain ⟨ts, hasTs, -, tsText, tsInt⟩ :=
    @find (ascii "ts") (.integer (tsSec clip)) (by simp [clipValues])
  obtain ⟨file, hasPath, pathString, pathText⟩ :=
    @find (ascii "path") (.string path) (by simp [clipValues])
  obtain ⟨name, hasSession, -, sessionText⟩ :=
    @find (ascii "session_id") (.string session) (by simp [clipValues])
  have stamp : tsOf entries = some (tsSec clip) := by
    rw [tsOf, hasTs]
    simp only [tsInt, Option.join_some]
  simp [clipRowOf, hasType, typeString, typeText, offset, length, hasPath, hasSession, stamp,
    hasTs, tsText, pathString, pathText, sessionText, rowOfClip]

theorem strip_ne_nil {s : Bytes} {b : UInt8} (mem : b ∈ s) (solid : isPySpace b = false) :
    strip s ≠ [] := by
  intro empty
  rw [strip, List.rdropWhile_eq_nil_iff] at empty
  have front := List.head?_dropWhile_not isPySpace s
  cases split : s.dropWhile isPySpace with
  | nil =>
      have blank := List.dropWhile_eq_nil_iff.mp split b mem
      rw [solid] at blank
      cases blank
  | cons first rest =>
      rw [split] at front empty
      have blank := empty first List.mem_cons_self
      simp only [List.head?_cons] at front
      rw [front] at blank
      cases blank

theorem clipValues_fit {clip : SmClipRecord} (plain : PlainClip clip) (sessionName : IsName session)
    (pathName : IsName path) :
    ∀ member ∈ clipValues clip session path complete, IsName member.1 ∧ member.2.Fits := by
  have safe {n : Int} (small : n.natAbs ≤ 2 ^ 62) : IsLong n := by
    unfold IsLong longMin longMax
    omega
  have stamp : (tsSec clip).natAbs ≤ clip.startTsMs.natAbs := by
    rw [tsSec, Int.natAbs_tdiv]
    exact Nat.div_le_self _ _
  have started := plain.started
  have ended := plain.ended
  have bound := plain.bound
  rw [Int.abs_eq_natAbs] at started ended
  simp only [maxSafeInteger] at bound
  have mode : IsName (boundaryModeName clip.boundaryMode) := by
    cases clip.boundaryMode <;> decide
  simp only [clipValues, List.forall_mem_cons, PlainValue.Fits]
  exact ⟨⟨by decide, by decide⟩, ⟨by decide, sessionName⟩, ⟨by decide, safe (by omega)⟩,
    ⟨by decide, pathName⟩, ⟨by decide, safe (by omega)⟩, ⟨by decide, safe (by omega)⟩,
    ⟨by decide, safe (by omega)⟩, ⟨by decide, safe (by omega)⟩, ⟨by decide, safe (by omega)⟩,
    ⟨by decide, mode⟩, ⟨by decide, trivial⟩, by simp⟩

/-- The row that a query prints for a clip without tags is read as the row of the clip. -/
theorem readRow_clip (py : Python) {clip : SmClipRecord} (plain : PlainClip clip)
    (sessionName : IsName session) (pathName : IsName path) :
    readRow py (clipKey session (tsSec clip) ++ [tab] ++ clipLine clip session path complete []) =
      some (some (rowOfClip session path clip)) := by
  have absent : tab ∉ clipKey session (tsSec clip) := by
    rw [clipKey, List.mem_append, List.mem_cons]
    rintro (inside | colon | digit)
    · exact absurd (sessionName tab inside).2.2.1 (by decide)
    · exact absurd colon (by decide)
    · rcases decimal_chars _ tab digit with digit | minus
      · exact absurd digit (by decide)
      · exact absurd minus (by decide)
  have solid : strip (clipKey session (tsSec clip) ++ [tab] ++
      clipLine clip session path complete []) ≠ [] :=
    @strip_ne_nil _ 58 (by simp [clipKey]) (by decide)
  obtain ⟨entries, loaded, shown⟩ :=
    py.loads_plain (clipValues_fit complete plain sessionName pathName)
  rw [← clipLine_values] at loaded
  rw [readRow, if_neg solid, List.append_assoc, List.singleton_append, strchr_append absent]
  simp only [loaded]
  exact clipRowOf_clipValues clip complete shown

end Printed

theorem queryClipRecords_map {py : Python} {α : Type} {xs : List α} {text : α → Bytes}
    {row : α → ClipRow} (inner : ∀ x ∈ xs, ∀ b ∈ text x, b = tab ∨ 32 ≤ b)
    (read : ∀ x ∈ xs, readRow py (text x) = some (some (row x))) :
    queryClipRecords py (xs.flatMap fun x => text x ++ [lf]) =
      some (sortBy sortKey (xs.map row)) := by
  have lines : xs.flatMap (fun x => text x ++ [lf]) = (xs.map text).flatMap (· ++ [lf]) := by
    rw [List.flatMap_map]
  have plain : cr ∉ (xs.map text).flatMap (· ++ [lf]) := by
    intro mem
    obtain ⟨line, listed, here⟩ := List.mem_flatMap.mp mem
    obtain ⟨x, there, rfl⟩ := List.mem_map.mp listed
    rcases List.mem_append.mp here with here | last
    · rcases inner x there cr here with same | visible
      · exact absurd same (by decide)
      · exact absurd visible (by decide)
    · exact absurd (List.mem_singleton.mp last) (by decide)
  have ends : ∀ line ∈ xs.map text, ∀ b ∈ line, isLineEnd b = false := by
    intro line listed b here
    obtain ⟨x, there, rfl⟩ := List.mem_map.mp listed
    rcases inner x there b here with rfl | visible
    · rfl
    · simp only [isLineEnd, Bool.or_eq_false_iff, Bool.and_eq_false_iff, decide_eq_false_iff_not,
        UInt8.le_iff_toNat_le, UInt8.reduceToNat] at visible ⊢
      omega
  have rows : (xs.map text).mapM (readRow py) = some (xs.map fun x => some (row x)) := by
    clear lines plain ends inner
    induction xs with
    | nil => rfl
    | cons x xs ih =>
        rw [List.forall_mem_cons] at read
        rw [List.map_cons, List.mapM_cons, read.1, ih read.2]
        rfl
  rw [queryClipRecords, lines, universalNewlines_plain plain, splitlines_lines ends, rows,
    Option.map_some, List.filterMap_map]
  exact congrArg (fun kept => some (sortBy sortKey kept)) (congrFun List.filterMap_eq_map' xs)

/-- A string holds no control characters, and numbers are kept as they are written. -/
def pythonDialect : Dialect :=
  { exactDialect with
    raw := fun b => 32 ≤ b
    raw_printable := fun _ printable => decide_eq_true printable }

def plainValueOf : JsonValue → PyValue
  | .string s => ⟨true, s, some (readInt s)⟩
  | .number q => ⟨false, decimal q.num, some (some q.num)⟩
  | .bool b => ⟨false, if b then ascii "True" else ascii "False", some (some (if b then 1 else 0))⟩
  | .null | .array _ | .object _ => ⟨false, [], none⟩

def plainLoads (s : Bytes) : Loaded :=
  match parseText pythonDialect s with
  | some (.object members, rest) =>
      if rest.all isJsonSpace then
        .record (members.map fun member => (member.1, plainValueOf member.2))
      else .refused
  | some _ => .other
  | none => .refused

private def PlainValue.json : PlainValue → JsonValue
  | .string s => .string s
  | .integer n => .number n
  | .bool b => .bool b

private theorem plainValue_reads {value : PlainValue} (fits : value.Fits) :
    Reads pythonDialect value.text value.json ∧ value.Shows (plainValueOf value.json) := by
  cases value with
  | string s =>
      have visible : ∀ b ∈ s, b ≠ quote ∧ b ≠ backslash ∧ 32 ≤ b := fun b mem =>
        ⟨(fits b mem).1, (fits b mem).2.1, (fits b mem).2.2.1⟩
      exact ⟨reads_quoted (plain_of_visible visible), rfl, rfl⟩
  | integer n =>
      have shown : plainValueOf (.number (n : ℚ)) = ⟨false, decimal n, some (some n)⟩ := by
        simp [plainValueOf]
      refine ⟨reads_decimal n, ?_⟩
      rw [PlainValue.json, shown]
      exact ⟨rfl, rfl, rfl⟩
  | bool b => exact ⟨reads_bool b, rfl⟩

/-- An interpreter that reads plain objects alone, and has no letters beyond ASCII. -/
def plainPython : Python where
  loads := plainLoads
  isAlnum _ := false
  loads_plain := by
    intro members fits
    have reads : List.Forall₂ (MemberReads pythonDialect)
        (members.map fun member => (member.1, member.2.text))
        (members.map fun member => (member.1, member.2.json)) := by
      induction members with
      | nil => exact .nil
      | cons member members ih =>
          obtain ⟨⟨name, value⟩, later⟩ := List.forall_mem_cons.mp fits
          refine .cons ⟨rfl, plain_of_visible fun b mem => ?_, (plainValue_reads value).1⟩
            (ih later)
          exact ⟨(name b mem).1, (name b mem).2.1, (name b mem).2.2.1⟩
    refine ⟨(members.map fun member => (member.1, member.2.json)).map fun member =>
      (member.1, plainValueOf member.2), ?_, ?_⟩
    · rw [plainLoads, (reads_object reads).parseText]
      rfl
    · rw [List.map_map]
      clear reads
      induction members with
      | nil => exact .nil
      | cons member members ih =>
          obtain ⟨⟨-, value⟩, later⟩ := List.forall_mem_cons.mp fits
          exact .cons ⟨rfl, (plainValue_reads value).2⟩ (ih later)

end StreamDataPipeline.UdpStream.ClipRows
