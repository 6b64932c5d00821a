/- The extraction that the client starts while the applets may still be running. -/

import StreamDataPipeline.Pipeline.Interrupted
import StreamDataPipeline.UdpStream.FullRun

/-!
The client starts the script again and again until it succeeds. An attempt finds the database as
the applets have left it so far, with a row that may be torn, and the session file as the server
has written it so far.
-/

set_option autoImplicit false
set_option relaxedAutoImplicit false

namespace StreamDataPipeline.UdpStream.AutoExtract

open Foundations Foundations.ByteString Foundations.Lines Foundations.LastWrite
  Foundations.Json Foundations.JsonText Foundations.PipeChain
open Lib.JsonlCodec LogParse.JsonlMode StreamMerge.Fsm StreamMerge.FsmRun StreamMerge.EmitClip
  StreamMerge.AcceptedRecords StreamMerge.DrainMeta
open ClipStore.Format ClipStore.Query ClipStore.Main ClipStore.WriteFailures
open Pipeline.ClipLine Pipeline.ClipAccepted Pipeline.ClipKeys Pipeline.PlainClips
  Pipeline.ProcessChain Pipeline.StoredClips Pipeline.Interrupted
open Server Ingested Client Delivery Datagram ClipRows Extractor Extracted FullRun

/-- What the script finds at one attempt. -/
structure Attempt where
  clock : Nat → Nat
  disk : Disk
  raw : Directory
  stored : Bytes

/-- The setting of a run with what an attempt finds. -/
def Attempt.setting (a : Attempt) (env : Setting) : Setting :=
  { env with clock := a.clock, disk := a.disk, raw := a.raw }

/-- The loop of `run_auto_extract` up to its deadline; `none` among the attempts stands for a
database file that is not there or is older than the stream. -/
def runAutoExtract (c : CJson) (z : Zlib) (env : Setting) (session : Bytes)
    (attempts : List (Option Attempt)) : Option Directory :=
  attempts.findSome? fun attempt => attempt.bind fun a =>
    extractUdpClips c z env.py a.clock env.program env.store.db session a.stored a.disk a.raw

variable {c : CJson} {d : Dialect} {z : Zlib} {src session path : Bytes} {events : List FsmEvent}

theorem clipRows_carried {lines : List PrintedClip} (ttl : Int) (clock : Nat → Nat)
    (carried : ∀ printed ∈ lines, Carried c session printed) (calls : Nat) :
    ∀ row ∈ clipRows c ttl clock (lines.map (·.2 ++ [lf])) calls,
      ∃ p ∈ lines, (row.key, row.value) = (lineKey session p, p.2) := by
  induction lines generalizing calls with
  | nil => simp [clipRows]
  | cons printed rest ih =>
      rw [List.forall_mem_cons] at carried
      rw [List.map_cons, clipRows, carried.1.record, List.forall_mem_cons]
      refine ⟨⟨printed, List.mem_cons_self, rfl⟩, fun row mem => ?_⟩
      obtain ⟨p, here, same⟩ := ih carried.2 (calls + 1) row mem
      exact ⟨p, List.mem_cons_of_mem _ here, same⟩

/-- At every moment of a run of the applets, the query lists clips of the session, and no two of
the same second. -/
theorem listed_of_run (correct : c.IsCorrect d) (carriable : Carriable d src session)
    (built : artifactPath src session = some path)
    (safe : ∀ clip ∈ runClips events, |tsSec clip| ≤ 2 ^ 53 - 1) {ttl : Int}
    {clock : Nat → Nat} {printed : Bytes}
    (prints : printActions c src session (sessionActions events) = some printed) {sizes : Sizes}
    {schedule : List (Nat × Action)} {sys : List (Stage UInt8) × Bytes}
    (ran : Schedule.run step (pipelineStages c z typeClipFilter ttl clock printed sizes, [])
      schedule = some sys) (env : Setting) :
    ∃ rows : List (Bytes × Bytes),
      (clipStoreMain c z sys.2 (env.query session)).2 =
        ⟨rows.flatMap fun row => row.1 ++ [tab] ++ row.2 ++ [lf], 0⟩ ∧
      (rows.map Prod.fst).Nodup ∧
      ∀ row ∈ rows, ∃ p ∈ sessionLines c src session events, row = (lineKey session p, p.2) := by
  obtain ⟨text, carried⟩ := sessionLines_carried correct carriable built safe
  obtain rfl := Option.some.inj (prints.symm.trans text)
  have ofClip := clipRows_carried ttl clock carried 1
  rw [← pieces_carried carried, ← jsonlMode_carried carried] at ofClip
  have clean : ∀ row ∈ clipRows c ttl clock (pieces lf (jsonlMode c typeClipFilter
      ((sessionLines c src session events).flatMap (·.2 ++ [lf]))).1) 1,
      ∀ b ∈ row.key, FieldByte b := by
    intro row mem
    obtain ⟨p, -, same⟩ := ofClip row mem
    rw [(Prod.mk.inj same).1]
    exact (clipKey_clean_iff session (tsSec p.1)).mpr carriable.fieldBytes
  obtain ⟨k, cut, -, -, all, -, torn⟩ :=
    rows_of_run c z typeClipFilter ttl clock (.inl rfl) _ clean ran
  obtain ⟨rows, nodup, members, answer⟩ := query_prints c z env session sys.2
  refine ⟨rows.map fun row => (row.key, row.value), ?_, ?_, ?_⟩
  · rw [answer, List.flatMap_map]
    rfl
  · rw [List.map_map]
    exact nodup
  · intro listed mem
    obtain ⟨row, here, rfl⟩ := List.mem_map.mp mem
    obtain ⟨latest, live⟩ := members row here
    obtain ⟨stored, inside, key, value, -⟩ :=
      whole_of_latest all torn (Int.natCast_nonneg (env.clock 0)) latest live
    have fresh : dbRows z [] = [] := rfl
    rw [fresh, List.nil_append] at inside
    obtain ⟨p, ofLine, same⟩ := ofClip stored ((List.takeWhile_sublist _).subset inside)
    exact ⟨p, ofLine, by rw [← key, ← value, same]⟩

theorem lines_differ (correct : c.IsCorrect d) (names : IsName (src ++ session))
    (built : artifactPath src session = some path)
    (plain : ∀ clip ∈ runClips events, PlainClip clip)
    (rises : (runClips events).Pairwise fun a b => a.startOffset < b.startOffset) :
    ((sessionLines c src session events).map fun p => (lineKey session p, p.2)).Nodup := by
  have sessionName := isName_session names
  have read : ∀ p ∈ sessionLines c src session events,
      readRow plainPython (lineKey session p ++ [tab] ++ p.2) =
        some (some (rowOfClip session path p.1)) := by
    intro p mem
    obtain ⟨complete, line⟩ := sessionLines_text correct built
      (fun clip here => (plain clip here).untagged) p mem
    have here : p.1 ∈ runClips events :=
      (clips_of_lines (List.Sublist.refl _)).subset (List.mem_map_of_mem mem)
    rw [line]
    exact readRow_clip complete plainPython (plain p.1 here) sessionName (isName_path names built)
  have lineRises : (sessionLines c src session events).Pairwise fun p q =>
      p.1.startOffset < q.1.startOffset := by
    have sub := rises.sublist
      (clips_of_lines (List.Sublist.refl (sessionLines c src session events)))
    rw [List.pairwise_map] at sub
    exact sub
  apply List.pairwise_map.mpr
  apply lineRises.imp_of_mem
  intro p q inP inQ less same
  obtain ⟨keys, texts⟩ := Prod.mk.inj same
  have rows := (read p inP).symm.trans (keys ▸ texts ▸ read q inQ)
  have offsets := congrArg ClipRow.offset (Option.some.inj (Option.some.inj rows))
  change (p.1.startOffset : Int) = q.1.startOffset at offsets
  omega

theorem slice_prefix {found file : Bytes} (begins : found <+: file) {offset length : Nat}
    (inside : offset + length ≤ found.length) :
    slice found offset length = slice file offset length := by
  obtain ⟨more, rfl⟩ := begins
  rw [slice, slice, List.drop_append_of_le_length (by omega),
    List.take_append_of_le_length (by rw [List.length_drop]; omega)]

/-- What an attempt of the script leaves at some moment of a run of the applets. -/
theorem attempt_in_order (correct : c.IsCorrect d) (names : IsName (src ++ session))
    (short : session.length < 128) (named : session ≠ [])
    (built : artifactPath src session = some path)
    (plain : ∀ clip ∈ runClips events, PlainClip clip)
    (rises : (runClips events).Pairwise fun a b => a.startOffset < b.startOffset)
    {ttl : Int} {clock : Nat → Nat} {printed : Bytes}
    (prints : printActions c src session (sessionActions events) = some printed) {sizes : Sizes}
    {schedule : List (Nat × Action)} {sys : List (Stage UInt8) × Bytes}
    (ran : Schedule.run step (pipelineStages c z typeClipFilter ttl clock printed sizes, [])
      schedule = some sys) {env : Setting} {found file : Bytes}
    (there : env.disk.files path = some found) (begins : found <+: file) {dir : Directory}
    (extracted : extractUdpClips c z env.py env.clock env.program env.store.db session sys.2
      env.disk env.raw = some dir) :
    ∃ clips : List SmClipRecord, clips ≠ [] ∧ clips.Sublist (runClips events) ∧
      (clips.map tsSec).Nodup ∧ readFile dir (orderedName (safeName env.py session)) =
        some (clips.flatMap fun clip => slice file clip.startOffset clip.totalLength) := by
  have safe : ∀ clip ∈ runClips events, |tsSec clip| ≤ 2 ^ 53 - 1 := fun clip mem =>
    tsSec_safe (plain clip mem)
  obtain ⟨rows, answer, distinct, ofLines⟩ :=
    listed_of_run correct (carriable_of_names names short) built safe prints ran env
  let lines := sessionLines c src session events
  let row (p : PrintedClip) : Bytes × Bytes := (lineKey session p, p.2)
  let kept := lines.filter fun p => row p ∈ rows
  have part : kept.Sublist lines := List.filter_sublist
  have differ : (lines.map row).Nodup := lines_differ correct names built plain rises
  have perm : rows.Perm (kept.map row) := by
    rw [List.perm_ext_iff_of_nodup (distinct.of_map Prod.fst) (differ.sublist (part.map row))]
    intro listed
    constructor
    · intro mem
      obtain ⟨p, ofLine, rfl⟩ := ofLines listed mem
      exact List.mem_map_of_mem (List.mem_filter.mpr ⟨ofLine, decide_eq_true mem⟩)
    · intro mem
      obtain ⟨p, here, rfl⟩ := List.mem_map.mp mem
      exact of_decide_eq_true (List.mem_filter.mp here).2
  have records := records_of_rows correct names built plain rises part env.py perm
  rw [extractUdpClips_query c z named, answer, if_pos rfl] at extracted
  obtain ⟨rows', read, some_row, within, writable⟩ := rows_of_extract extracted
  obtain rfl := Option.some.inj (records.symm.trans read)
  have inside : ∀ p ∈ kept, p.1.startOffset + p.1.totalLength ≤ found.length := fun p mem =>
    ((inside_rowOfClip there p.1).mp (within _ (List.mem_map_of_mem mem))).2
  have writes : env.Writes session path (kept.map Prod.fst) := by
    rw [Setting.Writes, List.map_map]
    exact writable
  have ordered := ordered_of_records plain named there part inside writes answer records
  have some_clip : kept ≠ [] := fun none_left => some_row (by rw [none_left]; rfl)
  rw [if_neg some_clip, Setting.orderedFile, extractUdpClips_query c z named, answer, if_pos rfl,
    extracted, Option.bind_some] at ordered
  refine ⟨kept.map Prod.fst, by simpa using some_clip, clips_of_lines part, ?_, ?_⟩
  · have keys := (perm.map Prod.fst).nodup_iff.mp distinct
    rw [List.map_map] at keys ⊢
    exact List.Nodup.of_map (clipKey session) (by rw [List.map_map]; exact keys)
  · rw [ordered, List.flatMap_map]
    exact congrArg some (List.flatMap_congr fun p mem => slice_prefix begins (inside p mem))

/-- What an attempt finds at some moment of a run of the applets that begins with no database. -/
structure Attempt.During (a : Attempt) (c : CJson) (z : Zlib) (env : Setting)
    (src session printed path file : Bytes) : Prop where
  started : Operands src session
  begun : ∃ found, a.disk.files path = some found ∧ found <+: file
  running : ∃ schedule sys, Schedule.run step (pipelineStages c z typeClipFilter env.ttl
    env.store.clock printed env.sizes, []) schedule = some sys ∧ sys.2 = a.stored

def lastAttempt (stored : Bytes) : Attempt :=
  ⟨fun _ => 1, ⟨fun _ => some [1, 2, 3], fun _ => true⟩, [], stored⟩

/-- The database is not there at the first attempt. -/
def twoAttempts (stored : Bytes) : List (Option Attempt) := [none, some (lastAttempt stored)]

end StreamDataPipeline.UdpStream.AutoExtract
