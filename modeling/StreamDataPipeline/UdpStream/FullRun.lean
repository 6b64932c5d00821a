/- From the client to the ordered file of the session. -/

import StreamDataPipeline.Pipeline.PlainClips
import StreamDataPipeline.UdpStream.Delivery
import StreamDataPipeline.UdpStream.Extracted

/-!
What the client sends is stored by the server, cut into clips, filed in the database, listed and
joined again.
-/

set_option autoImplicit false
set_option relaxedAutoImplicit false

namespace StreamDataPipeline.UdpStream.FullRun

open Foundations Foundations.ByteString Foundations.Decimal Foundations.LastWrite
  Foundations.ExpiringMap Foundations.Getopt Foundations.Json Foundations.JsonText
  Foundations.PipeChain
open Lib.JsonlCodec StreamMerge.Events StreamMerge.Fsm StreamMerge.FsmRun StreamMerge.EmitClip
  StreamMerge.ByteConservation StreamMerge.SequenceOrder StreamMerge.AcceptedRecords
  StreamMerge.DrainMeta
open ClipStore.Format ClipStore.Query ClipStore.Main ClipStore.TtlRefinement
open Pipeline.ClipLine Pipeline.ClipAccepted Pipeline.ClipKeys Pipeline.PlainClips
  Pipeline.ProcessChain Pipeline.StoredClips
open Sidecar Server Ingested Datagram Client Delivery ClipRows Extractor Extracted

variable {c : CJson} {d : Dialect}

section Positions

variable {s : Session} {chunks : List Chunk}

theorem placed_bytes (offset : Nat) (chunks : List Chunk) :
    (placed offset chunks).flatMap (fun p => byteRange p.1 p.2.payload.length) =
      byteRange offset (payloads chunks).length := by
  induction chunks generalizing offset with
  | nil => rfl
  | cons chunk rest ih =>
      have length : (payloads (chunk :: rest)).length =
          chunk.payload.length + (payloads rest).length := by simp [payloads]
      rw [placed, List.flatMap_cons, ih, length]
      simp only [byteRange]
      rw [List.range'_append_1]

theorem places_plain (nonempty : ∀ chunk ∈ chunks, chunk.payload ≠ []) :
    ∀ rec ∈ ((placed 0 chunks).filter ReadablePlace).map placeRecord, PlainRecord rec := by
  intro rec mem
  have admitted := (places_admitted (placed 0 chunks) rec mem).1
  obtain ⟨p, here, rfl⟩ := List.mem_map.mp mem
  obtain ⟨there, readable⟩ := List.mem_filter.mp here
  have payload := nonempty p.2 (placed_inside p there).1
  exact ⟨⟨admitted, rfl, List.length_pos_iff.mpr payload⟩, rfl, (of_decide_eq_true readable).tsMs⟩

theorem wrote_positions (correct : c.IsCorrect d) (wrote : Wrote s chunks)
    (nonempty : ∀ chunk ∈ chunks, chunk.payload ≠ []) {calls : List (List Read)}
    {drained : Drained} (ran : drainCalls c start calls = some drained)
    (whole : delivered calls = s.sidecar) {events : List FsmEvent}
    (same : recordsOf events = drained.fed) :
    (∀ clip ∈ runClips events, PlainClip clip) ∧
      (runClips events).Pairwise (fun a b => a.startOffset < b.startOffset) ∧
      ∀ clip ∈ runClips events, clip.startOffset + clip.totalLength ≤ s.bin.length := by
  rw [(fed_of_wrote correct wrote ran whole).1] at same
  have records := places_plain nonempty
  rw [← same] at records
  have plain := runClips_plain (satisfies_of_recordsOf records)
  have pending : ∀ clip ∈ runClips events, 0 < clip.totalLength := fun clip mem =>
    (plain clip mem).pending
  have bytes := runClips_bytes (satisfies_of_recordsOf fun rec mem => (records rec mem).1.1)
  have part : ((runClips events).flatMap clipBytes).Sublist (byteRange 0 s.bin.length) := by
    rw [bytes, wrote.bin, ← placed_bytes 0 chunks]
    have accepted := acceptedRecords_sublist events (fsmRun smFsmReset events).2
    rw [same] at accepted
    refine (accepted.flatMap recordBytes).trans ?_
    rw [List.flatMap_map]
    exact List.filter_sublist.flatMap _
  refine ⟨plain, starts_rise pending ?_, clips_end pending fun i mem => ?_⟩
  · exact (List.pairwise_lt_range' 1).sublist part
  · have inside := List.mem_range'_1.mp (part.subset mem)
    omega

end Positions

/-- The run of the applets and of the script, as far as the session does not determine it. -/
structure Setting where
  store : Invocation
  ttl : Int
  sizes : Sizes
  clock : Nat → Nat
  program : Bytes
  py : Python
  disk : Disk
  raw : Directory

/-- Every line is stored, and is there when the script asks for it. -/
structure Setting.Suits (env : Setting) (z : Zlib) (lines : List PrintedClip) : Prop where
  ttlGiven : parseTtl env.store.ttlArg = some env.ttl
  fits : ∀ n, ∀ t ∈ expiry env.ttl (env.store.clock n), t ≤ longMax
  compresses : ∀ printed ∈ lines, (z.compress printed.2).isSome
  room : 0 < env.sizes.pipe1 ∧ 0 < env.sizes.pipe2
  live : ∀ n, expired (expiry env.ttl (env.store.clock n)) (env.clock 0) = false

/-- The script can write the files that it makes of some clips. -/
def Setting.Writes (env : Setting) (session path : Bytes) (clips : List SmClipRecord) : Prop :=
  Writable env.py env.disk.writes (clips.map (rowOfClip session path))

/-- The dispatcher and stream_merge take the two names for operands; they are no options. -/
def Operands (src session : Bytes) : Prop := isOperand session = true ∧ isOperand src = true

/-- The three applets were started and have come to an end with this database file. -/
def Setting.Leaves (env : Setting) (c : CJson) (z : Zlib) (src session : Bytes)
    (events : List FsmEvent) (stored : Bytes) : Prop :=
  Operands src session ∧ ∃ printed schedule sys,
    printActions c src session (sessionActions events) = some printed ∧
    Schedule.run step (pipelineStages c z typeClipFilter env.ttl env.store.clock printed
      env.sizes, []) schedule = some sys ∧
    (∀ move, step sys move = none) ∧ sys.2 = stored

/-- The ordered file of the session; `none` if the script fails. -/
def Setting.orderedFile (env : Setting) (c : CJson) (z : Zlib) (session stored : Bytes) :
    Option Bytes :=
  (extractUdpClips c z env.py env.clock env.program env.store.db session stored env.disk
    env.raw).bind (readFile · (orderedName (safeName env.py session)))

section Session

variable {z : Zlib} {src session path : Bytes} {events : List FsmEvent}

theorem tsSec_safe {clip : SmClipRecord} (plain : PlainClip clip) : |tsSec clip| ≤ 2 ^ 53 - 1 := by
  have bound := plain.started
  rw [Int.abs_eq_natAbs] at bound ⊢
  rw [tsSec, Int.natAbs_tdiv]
  have smaller : clip.startTsMs.natAbs.div (Int.natAbs 1000) ≤ clip.startTsMs.natAbs :=
    Nat.div_le_self _ _
  omega

theorem carriable_of_names (names : IsName (src ++ session))
    (short : session.length < 128) : Carriable d src session where
  plain b mem := by
    obtain ⟨notQuote, notBackslash, printable, -⟩ := names b mem
    refine ⟨⟨notQuote, notBackslash, d.raw_printable b printable⟩, ?_⟩
    rintro rfl
    exact absurd printable (by decide)
  nulFree mem := absurd (names _ mem).2.2.1 (by decide)
  field := ⟨fun mem => absurd (names _ (List.mem_append_right src mem)).2.2.1 (by decide),
    fun mem => absurd (names _ (List.mem_append_right src mem)).2.2.1 (by decide)⟩
  short := short

theorem isName_session (names : IsName (src ++ session)) : IsName session :=
  fun b mem => names b (List.mem_append_right src mem)

theorem isName_path (names : IsName (src ++ session))
    (built : artifactPath src session = some path) : IsName path := by
  rw [IsName, List.forall_mem_append] at names
  rw [artifactPath_eq built]
  simp only [IsName, List.forall_mem_append]
  exact ⟨⟨names.1, by decide⟩, names.2, by decide⟩

theorem exists_leaves (operands : Operands src session) (correct : c.IsCorrect d)
    (carriable : Carriable d src session)
    (built : artifactPath src session = some path)
    (safe : ∀ clip ∈ runClips events, |tsSec clip| ≤ 2 ^ 53 - 1) (env : Setting) :
    ∃ stored, env.Leaves c z src session events stored := by
  have text := (sessionLines_carried correct carriable built safe).1
  obtain ⟨schedule, sys, ran, stuck⟩ := exists_stuck (pipelineStages c z typeClipFilter env.ttl
    env.store.clock ((sessionLines c src session events).flatMap (·.2 ++ [lf])) env.sizes, [])
  exact ⟨sys.2, operands, _, schedule, sys, text, ran, stuck, rfl⟩

def Setting.query (env : Setting) (session : Bytes) : Invocation :=
  ⟨env.store.db, ascii "3600", .listPrefix (session ++ ascii ":"), env.clock⟩

theorem query_prints (c : CJson) (z : Zlib) (env : Setting) (session stored : Bytes) :
    ∃ rows : List Row, (rows.map Row.key).Nodup ∧
      (∀ row ∈ rows, latestRow z stored row.key = some row ∧
        rowIsLive row (env.clock 0) = true) ∧
      (clipStoreMain c z stored (env.query session)).2 = ⟨rows.flatMap printRow, 0⟩ := by
  obtain ⟨rows, nodup, printed, members⟩ :=
    printRows_spec z stored (some (session ++ ascii ":")) (env.clock 0)
  have given : parseTtl (ascii "3600") = some 3600 := by decide
  refine ⟨rows, nodup, fun row mem => ?_, ?_⟩
  · obtain ⟨latest, live, -⟩ := (members row).mp mem
    exact ⟨latest, live⟩
  · simp only [Setting.query, clipStoreMain, given, printed]

theorem extractUdpClips_query (c : CJson) (z : Zlib) {env : Setting} (named : session ≠ [])
    {stored : Bytes} :
    extractUdpClips c z env.py env.clock env.program env.store.db session stored env.disk env.raw =
      if (clipStoreMain c z stored (env.query session)).2.status = 0 then
        extract env.py env.disk env.raw (clipStoreMain c z stored (env.query session)).2.stdout
      else none := by
  rw [extractUdpClips, clipStoreStart_queryArgv, if_neg named]
  rfl

theorem inside_rowOfClip {files : Bytes → Option Bytes} {file : Bytes}
    (found : files path = some file) (clip : SmClipRecord) :
    Inside files (rowOfClip session path clip) ↔
      0 < clip.totalLength ∧ clip.startOffset + clip.totalLength ≤ file.length := by
  constructor
  · rintro ⟨source, there, positive, -, bound⟩
    obtain rfl := Option.some.inj (found.symm.trans there)
    change (0 : Int) < clip.totalLength at positive
    change (clip.startOffset : Int) + clip.totalLength ≤ file.length at bound
    omega
  · rintro ⟨positive, bound⟩
    refine ⟨file, found, Int.natCast_pos.mpr positive, Int.natCast_nonneg _, ?_⟩
    change (clip.startOffset : Int) + clip.totalLength ≤ file.length
    omega

theorem clips_of_lines {kept : List PrintedClip}
    (part : kept.Sublist (sessionLines c src session events)) :
    (kept.map Prod.fst).Sublist (runClips events) := by
  have sub := part.map Prod.fst
  rwa [sessionLines, map_fst_linesOf] at sub

theorem query_lists (correct : c.IsCorrect d) (carriable : Carriable d src session)
    (built : artifactPath src session = some path)
    (safe : ∀ clip ∈ runClips events, |tsSec clip| ≤ 2 ^ 53 - 1) {env : Setting}
    (suits : env.Suits z (sessionLines c src session events)) {stored : Bytes}
    (leaves : env.Leaves c z src session events stored) :
    (clipStoreMain c z stored (env.query session)).2.status = 0 ∧
      Lists (after (clipWrites session env.ttl env.store.clock
          (sessionLines c src session events) 1)) (env.clock 0) (session ++ [58])
        (clipStoreMain c z stored (env.query session)).2.stdout := by
  obtain ⟨-, printed, schedule, sys, prints, ran, stuck, rfl⟩ := leaves
  have text := (sessionLines_carried correct carriable built safe).1
  obtain rfl := Option.some.inj (prints.symm.trans text)
  obtain ⟨rows, -, -, out⟩ := query_prints c z env session sys.2
  have succeeds : (clipStoreMain c z sys.2 (env.query session)).2.status = 0 := by rw [out]
  have reads : IsQuery (env.query session).mode := trivial
  exact ⟨succeeds, stuck_answers correct carriable built safe suits.ttlGiven suits.fits
    suits.compresses suits.room ran stuck reads succeeds⟩

theorem current_lines (c : CJson) (src session : Bytes) (events : List FsmEvent) :
    (current (lineKey session) (sessionLines c src session events)).map Prod.fst =
      current tsSec (runClips events) := by
  have clips : (sessionLines c src session events).map Prod.fst = runClips events :=
    map_fst_linesOf c src session (sessionActions events)
  have keys (p q : PrintedClip) : tsSec p.1 = tsSec q.1 ↔ lineKey session p = lineKey session q :=
    ⟨congrArg (clipKey session), clipKey_injective session⟩
  rw [← clips, current_map (lineKey session) Prod.fst keys]

theorem records_of_rows (correct : c.IsCorrect d) (names : IsName (src ++ session))
    (built : artifactPath src session = some path)
    (plain : ∀ clip ∈ runClips events, PlainClip clip)
    (rises : (runClips events).Pairwise fun a b => a.startOffset < b.startOffset)
    {kept : List PrintedClip} (part : kept.Sublist (sessionLines c src session events))
    {rows : List (Bytes × Bytes)} (py : Python)
    (perm : rows.Perm (kept.map fun p => (lineKey session p, p.2))) :
    queryClipRecords py (rows.flatMap fun row => row.1 ++ [tab] ++ row.2 ++ [lf]) =
      some (kept.map fun p => rowOfClip session path p.1) := by
  have texts : ∀ p ∈ kept, ∃ complete, p.2 = clipLine p.1 session path complete [] :=
    fun p mem => sessionLines_text correct built (fun clip here => (plain clip here).untagged) p
      (part.subset mem)
  have keptPlain : ∀ p ∈ kept, PlainClip p.1 := fun p mem =>
    plain p.1 ((clips_of_lines part).subset (List.mem_map_of_mem mem))
  have keptRises : kept.Pairwise fun p q => p.1.startOffset < q.1.startOffset := by
    have sub := rises.sublist (clips_of_lines part)
    rw [List.pairwise_map] at sub
    exact sub
  exact queryClipRecords_rows (isName_session names) (isName_path names built) keptPlain perm texts
    keptRises

theorem ordered_of_records (plain : ∀ clip ∈ runClips events, PlainClip clip) (named : session ≠ [])
    {env : Setting} {file : Bytes} (found : env.disk.files path = some file)
    {kept : List PrintedClip}
    (part : kept.Sublist (sessionLines c src session events))
    (inside : ∀ p ∈ kept, p.1.startOffset + p.1.totalLength ≤ file.length)
    (writes : env.Writes session path (kept.map Prod.fst)) {stored out : Bytes}
    (answer : (clipStoreMain c z stored (env.query session)).2 = ⟨out, 0⟩)
    (records : queryClipRecords env.py out = some (kept.map fun p => rowOfClip session path p.1)) :
    env.orderedFile c z session stored = if kept = [] then none else
      some (kept.flatMap fun p => slice file p.1.startOffset p.1.totalLength) := by
  rw [Setting.orderedFile, extractUdpClips_query c z named, answer]
  dsimp only
  rw [if_pos rfl]
  split_ifs with empty
  · rw [extract, records, empty]
    rfl
  · have some_rows : kept.map (fun p => rowOfClip session path p.1) ≠ [] := fun none_left =>
      empty (List.map_eq_nil_iff.mp none_left)
    have within : ∀ row ∈ kept.map fun p => rowOfClip session path p.1,
        Inside env.disk.files row := by
      intro row mem
      obtain ⟨p, here, rfl⟩ := List.mem_map.mp mem
      have bound := inside p here
      have pending := (plain p.1 ((clips_of_lines part).subset (List.mem_map_of_mem here))).pending
      exact (inside_rowOfClip found p.1).mpr ⟨pending, bound⟩
    have one : ∀ row ∈ kept.map fun p => rowOfClip session path p.1, row.session = session := by
      intro row mem
      obtain ⟨p, -, rfl⟩ := List.mem_map.mp mem
      rfl
    rw [Setting.Writes, List.map_map] at writes
    obtain ⟨dir, extracted, content⟩ :=
      @extract_session session _ env.disk env.raw _ _ records some_rows within writes one
    rw [extracted, Option.bind_some, content, List.flatMap_map]
    refine congrArg some (List.flatMap_congr fun p mem => ?_)
    simp [cutOut, rowOfClip, found]

/-- Whatever the order of the processes and of the hash table, the ordered file of a session holds
the last clips of all seconds in the order of the session file. -/
theorem session_extracted (correct : c.IsCorrect d) (names : IsName (src ++ session))
    (short : session.length < 128) (named : session ≠ [])
    (built : artifactPath src session = some path)
    (plain : ∀ clip ∈ runClips events, PlainClip clip)
    (rises : (runClips events).Pairwise fun a b => a.startOffset < b.startOffset)
    {file : Bytes} (inside : ∀ clip ∈ runClips events,
      clip.startOffset + clip.totalLength ≤ file.length)
    {env : Setting} (found : env.disk.files path = some file)
    (suits : env.Suits z (sessionLines c src session events))
    (writes : env.Writes session path (current tsSec (runClips events))) {stored : Bytes}
    (leaves : env.Leaves c z src session events stored) :
    env.orderedFile c z session stored = if runClips events = [] then none else
      some ((current tsSec (runClips events)).flatMap fun clip =>
        slice file clip.startOffset clip.totalLength) := by
  have safe : ∀ clip ∈ runClips events, |tsSec clip| ≤ 2 ^ 53 - 1 := fun clip mem =>
    tsSec_safe (plain clip mem)
  obtain ⟨status, lists⟩ := query_lists correct (carriable_of_names names short) built safe suits
    leaves
  obtain ⟨rows, printed, perm⟩ := listed_rows suits.live lists
  have answer : (clipStoreMain c z stored (env.query session)).2 =
      ⟨rows.flatMap fun row => row.1 ++ [tab] ++ row.2 ++ [lf], 0⟩ := by
    rw [← printed, ← status]
  have part := current_sublist (lineKey session) (sessionLines c src session events)
  have kept_inside : ∀ p ∈ current (lineKey session) (sessionLines c src session events),
      p.1.startOffset + p.1.totalLength ≤ file.length := fun p mem =>
    inside p.1 ((clips_of_lines part).subset (List.mem_map_of_mem mem))
  have clips := current_lines c src session events
  rw [ordered_of_records plain named found part kept_inside (clips ▸ writes) answer
    (records_of_rows correct names built plain rises part env.py perm)]
  have empty_iff : current (lineKey session) (sessionLines c src session events) = [] ↔
      runClips events = [] := by
    rw [← List.map_eq_nil_iff (f := Prod.fst), clips, current_eq_nil]
  simp only [empty_iff, ← clips, List.flatMap_map]

end Session

section Content

theorem eq_of_flatMap_eq {α : Type} {f : α → Bytes} {part whole : List α}
    (sub : part.Sublist whole) (nonempty : ∀ x ∈ whole, f x ≠ [])
    (same : part.flatMap f = whole.flatMap f) : part = whole := by
  induction sub with
  | slnil => rfl
  | cons x sub ih =>
      have shorter := (sub.flatMap f).length_le
      have lengths := congrArg List.length same
      have some_byte := List.length_pos_iff.mpr (nonempty x List.mem_cons_self)
      rw [List.flatMap_cons, List.length_append] at lengths
      omega
  | cons_cons x sub ih =>
      rw [List.flatMap_cons, List.flatMap_cons] at same
      rw [ih (fun y mem => nonempty y (List.mem_cons_of_mem x mem)) (List.append_cancel_left same)]

variable {events : List FsmEvent}

theorem slice_ne_nil {file : Bytes} {offset length : Nat} (pending : 0 < length)
    (inside : offset + length ≤ file.length) : slice file offset length ≠ [] := by
  rw [← List.length_pos_iff, slice, List.length_take, List.length_drop]
  omega

theorem content_eq_iff {α : Type} {f : α → Bytes} {kept all : List α} (sub : kept.Sublist all)
    (nonempty : ∀ x ∈ all, f x ≠ []) {file : Bytes}
    (plain : ∀ clip ∈ runClips events, PlainClip clip)
    (inside : ∀ clip ∈ runClips events, clip.startOffset + clip.totalLength ≤ file.length)
    (cut : clipPayload file events = kept.flatMap f) :
    ((current tsSec (runClips events)).flatMap fun clip =>
        slice file clip.startOffset clip.totalLength) = all.flatMap f ↔
      kept = all ∧ ((runClips events).map tsSec).Nodup := by
  have clips : ∀ clip ∈ runClips events,
      slice file clip.startOffset clip.totalLength ≠ [] := fun clip mem =>
    slice_ne_nil (plain clip mem).pending (inside clip mem)
  have part := current_sublist tsSec (runClips events)
  constructor
  · intro content
    have small := part.flatMap fun clip => slice file clip.startOffset clip.totalLength
    have large := sub.flatMap f
    rw [content] at small
    rw [← cut] at large
    have same : all.flatMap f = clipPayload file events := small.antisymm large
    constructor
    · exact eq_of_flatMap_eq sub nonempty (cut.symm.trans same.symm)
    · have every := eq_of_flatMap_eq part clips (content.trans same)
      have nodup := current_nodup tsSec (runClips events)
      rwa [every] at nodup
  · rintro ⟨rfl, distinct⟩
    rw [current_of_nodup tsSec distinct]
    exact cut

/-- The ordered file of a session whose sidecar has been read whole, and when it has all bytes of
the pieces that the clips hold a part of. -/
theorem wrote_extracted (correct : c.IsCorrect d) {z : Zlib} {src session path : Bytes}
    (names : IsName (src ++ session)) (short : session.length < 128) (named : session ≠ [])
    (built : artifactPath src session = some path) {s : Session} {chunks : List Chunk}
    (wrote : Wrote s chunks)
    (some_payload : ∀ chunk ∈ chunks, chunk.payload ≠ []) {calls : List (List Read)}
    {drained : Drained} (drains : drainCalls c start calls = some drained)
    (whole : delivered calls = s.sidecar) (same : recordsOf events = drained.fed)
    {env : Setting} {stored : Bytes} (found : env.disk.files path = some s.bin)
    (suits : env.Suits z (sessionLines c src session events))
    (writes : env.Writes session path (current tsSec (runClips events)))
    (leaves : env.Leaves c z src session events stored) :
    (env.orderedFile c z session stored = if runClips events = [] then none else
      some ((current tsSec (runClips events)).flatMap fun clip =>
        slice s.bin clip.startOffset clip.totalLength)) ∧
    ∀ {α : Type} {f : α → Bytes} {kept all : List α}, kept.Sublist all → (∀ x ∈ all, f x ≠ []) →
      all ≠ [] → clipPayload s.bin events = kept.flatMap f →
        (env.orderedFile c z session stored = some (all.flatMap f) ↔
          kept = all ∧ ((runClips events).map tsSec).Nodup) := by
  obtain ⟨plain, rises, inside⟩ := wrote_positions correct wrote some_payload drains whole same
  have ordered := session_extracted correct names short named built plain rises inside found
    suits writes leaves
  refine ⟨ordered, fun part nonempty some_piece cut => ?_⟩
  rw [← content_eq_iff part nonempty plain inside cut, ordered]
  split_ifs with empty
  · refine iff_of_false (by simp) fun nothing => some_piece ?_
    rw [empty] at nothing
    exact (eq_of_flatMap_eq (List.nil_sublist _) nonempty nothing).symm
  · rw [Option.some.injEq]

end Content

section RawStream

variable {z : Zlib} {host : Host} {args : ClientArgs} {file src path : Bytes}

def demoSetting : Setting :=
  ⟨appendTo "db", 0, narrow, fun _ => 1, ascii "clip_store", plainPython,
    ⟨fun _ => some [1, 2, 3], fun _ => true⟩, []⟩

def demoEvents : List FsmEvent :=
  [.record (dataRecord 1 0 2 0) 1000 0, .record (dataRecord 2 2 1 40) 1000 10]

theorem demo_names : IsName (ascii "/d" ++ ascii "cam") := by decide

theorem demo_path :
    artifactPath (ascii "/d") (ascii "cam") = some (ascii "/d/cam.bin") := by decide

theorem demo_suits : demoSetting.Suits storedZlib
    (sessionLines (.ofDialect exactDialect) (ascii "/d") (ascii "cam") demoEvents) where
  ttlGiven := by decide
  fits _ := show ∀ t ∈ expiry 0 1, t ≤ longMax by decide
  compresses := by decide +kernel
  room := by decide
  live _ := show expired (expiry 0 1) 1 = false by decide

theorem demo_writes (session path : Bytes) (clips : List SmClipRecord) :
    demoSetting.Writes session path clips := fun _ _ => ⟨rfl, rfl⟩

theorem demo_leaves : ∃ stored, demoSetting.Leaves (.ofDialect exactDialect) storedZlib
    (ascii "/d") (ascii "cam") demoEvents stored :=
  exists_leaves ⟨by decide, by decide⟩ (CJson.ofDialect_isCorrect exactDialect)
    (carriable_of_names demo_names (by decide)) demo_path (by decide) demoSetting

/-- The session file, and the records that its sidecar gives when it is read at once. -/
def readOnce (lines : List Bytes) : Option (List (Bytes × Option (List SmMetaRecord))) :=
  ((lines.map readDatagram).foldlM (recv steadyHost) listening).map fun srv =>
    srv.sessions.map fun s =>
      (s.bin, (drainCalls (.ofDialect exactDialect) start [[(s.sidecar, some fun _ => 0)]]).map
        Drained.fed)

theorem readOnce_spec {lines : List Bytes} {s : Session}
    (ran : (lines.map readDatagram).foldlM (recv steadyHost) listening = some ⟨none, [s], true⟩)
    (once : readOnce lines = some [([1, 2, 3], some (recordsOf demoEvents))]) :
    s.bin = [1, 2, 3] ∧ ∃ calls drained,
      drainCalls (.ofDialect exactDialect) start calls = some drained ∧
        delivered calls = s.sidecar ∧ recordsOf demoEvents = drained.fed := by
  rw [readOnce, ran, Option.map_some, Option.some.injEq] at once
  obtain ⟨bin, drains⟩ := Prod.mk.inj (List.cons.inj once).1
  obtain ⟨drained, drains, fed⟩ := Option.map_eq_some_iff.mp drains
  exact ⟨bin, _, drained, drains, by simp [delivered], fed.symm⟩

end RawStream

section SegmentStream

variable {z : Zlib} {host : Host} {args : ClientArgs} {segments : List Bytes} {src path : Bytes}

theorem segmentAt_mem {k : Nat} (less : k < segments.length) : segmentAt segments k ∈ segments := by
  rw [segmentAt, List.getElem?_eq_getElem less]
  exact List.getElem_mem less

theorem range_flatMap_segmentAt (segments : List Bytes) :
    (List.range segments.length).flatMap (segmentAt segments) = segments.flatten := by
  have all : (List.range segments.length).map (segmentAt segments) = segments := by
    apply List.ext_getElem (by simp)
    intro k less inside
    simp [segmentAt, inside]
  rw [List.flatMap_def, all]

end SegmentStream

end StreamDataPipeline.UdpStream.FullRun
