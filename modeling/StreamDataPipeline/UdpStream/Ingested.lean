/- The bytes that the clips of a session cut out of the file that the server wrote. -/

import StreamDataPipeline.Pipeline.PlainClips
import StreamDataPipeline.StreamMerge.AcceptedRecords
import StreamDataPipeline.UdpStream.Server

/-!
stream_merge reads the sidecar of the session in any portions, with idle checks in between.
The byte ranges of its clips are then payloads of the session, whole and in order.
-/

set_option autoImplicit false
set_option relaxedAutoImplicit false

namespace StreamDataPipeline.UdpStream.Ingested

open Foundations Foundations.ByteString Foundations.Lines Foundations.Json Foundations.JsonText
  Foundations.RunningMaxima
open Lib.Buffer Lib.JsonlCodec StreamMerge.Fsm StreamMerge.FsmRun StreamMerge.ByteConservation
  StreamMerge.SequenceOrder StreamMerge.AcceptedRecords StreamMerge.DrainMeta
open Pipeline.ClipKeys Pipeline.PlainClips Sidecar Server

/-- The bytes of a file in a range. -/
def slice (file : Bytes) (offset length : Nat) : Bytes := (file.drop offset).take length

theorem slice_eq_filterMap (file : Bytes) (offset length : Nat) :
    slice file offset length = (byteRange offset length).filterMap fun i => file[i]? := by
  induction length generalizing offset with
  | zero => simp [slice, byteRange]
  | succ length ih =>
      have step := ih (offset + 1)
      rw [slice] at step ⊢
      rw [byteRange, List.range'_succ, List.filterMap_cons, ← byteRange, ← step]
      cases inside : file[offset]? with
      | none =>
          have beyond := List.getElem?_eq_none_iff.mp inside
          simp [List.drop_eq_nil_of_le, beyond, Nat.le_succ_of_le]
      | some b =>
          obtain ⟨less, rfl⟩ := List.getElem?_eq_some_iff.mp inside
          rw [List.drop_eq_getElem_cons less, List.take_succ_cons]

/-- The chunks with the offsets at which they were written. -/
def placed : Nat → List Chunk → List (Nat × Chunk)
  | _, [] => []
  | offset, chunk :: rest => (offset, chunk) :: placed (offset + chunk.payload.length) rest

theorem rowsFrom_eq_placed (offset : Nat) (chunks : List Chunk) :
    rowsFrom offset chunks = (placed offset chunks).map fun p => p.2.row p.1 := by
  induction chunks generalizing offset with
  | nil => rfl
  | cons chunk rest ih => rw [rowsFrom, placed, ih, List.map_cons]

theorem map_snd_placed (offset : Nat) (chunks : List Chunk) :
    (placed offset chunks).map Prod.snd = chunks := by
  induction chunks generalizing offset with
  | nil => rfl
  | cons chunk rest ih => rw [placed, List.map_cons, ih]

theorem slice_placed (before : Bytes) (chunks : List Chunk) :
    ∀ p ∈ placed before.length chunks,
      slice (before ++ payloads chunks) p.1 p.2.payload.length = p.2.payload := by
  induction chunks generalizing before with
  | nil => simp [placed]
  | cons chunk rest ih =>
      have whole : before ++ payloads (chunk :: rest) =
          (before ++ chunk.payload) ++ payloads rest := by simp [payloads]
      rw [placed, List.forall_mem_cons]
      constructor
      · rw [whole, List.append_assoc, slice, List.drop_left' rfl, List.take_left' rfl]
      · rw [whole, ← List.length_append]
        exact ih (before ++ chunk.payload)

abbrev ReadablePlace (p : Nat × Chunk) : Prop := Readable (p.2.row p.1)

/-- The chunks whose rows are taken by the reader. -/
def readableChunks (chunks : List Chunk) : List Chunk :=
  ((placed 0 chunks).filter ReadablePlace).map Prod.snd

def placeRecord (p : Nat × Chunk) : SmMetaRecord := rowRecord (p.2.row p.1)

variable {c : CJson} {d : Dialect} {host : Host} {s : Session} {chunks : List Chunk}

theorem filterMap_places (correct : c.IsCorrect d) (places : List (Nat × Chunk)) :
    places.filterMap (fun p => dataRecordOf c (cstr (rowText (p.2.row p.1)))) =
      (places.filter ReadablePlace).map placeRecord := by
  simp only [dataRecordOf_rowText correct]
  induction places with
  | nil => rfl
  | cons p rest ih =>
      by_cases readable : ReadablePlace p
      · simp only [List.filterMap_cons, if_pos readable, ih]
        rw [List.filter_cons, if_pos (decide_eq_true readable)]
        rfl
      · simp only [List.filterMap_cons, if_neg readable, ih]
        rw [List.filter_cons, if_neg (by simpa using readable)]

theorem fed_of_wrote (correct : c.IsCorrect d) (wrote : Wrote s chunks)
    {calls : List (List Read)} {drained : Drained}
    (ran : drainCalls c start calls = some drained) (whole : delivered calls = s.sidecar) :
    drained.fed = ((placed 0 chunks).filter ReadablePlace).map placeRecord ∧
      contents drained.metaBuf = [] := by
  have fresh : lf ∉ contents start.metaBuf := by simp [start, zeroBuffer, contents]
  obtain ⟨taken, clean⟩ := (drainCalls_taken (start_taken c) fresh calls).1 drained ran
  obtain ⟨handed, fed, -, left⟩ := taken.readWhole clean
  rw [List.nil_append, whole, wrote.sidecar] at handed left
  have text : (rowsFrom 0 chunks).flatMap (fun row => rowText row ++ [lf]) =
      ((rowsFrom 0 chunks).map rowText).flatMap (· ++ [lf]) := by rw [List.flatMap_map]
  have single : ∀ line ∈ (rowsFrom 0 chunks).map rowText, lf ∉ line := by
    intro line mem
    obtain ⟨row, -, rfl⟩ := List.mem_map.mp mem
    exact fun here => absurd (rowText_visible row lf here) (by decide)
  have lines := terminatedLines_lines single (List.not_mem_nil : lf ∉ [])
  rw [List.append_nil, ← text] at lines
  have nonempty : ((rowsFrom 0 chunks).map rowText).filter (· ≠ []) =
      (rowsFrom 0 chunks).map rowText := by
    rw [List.filter_eq_self]
    intro line mem
    obtain ⟨row, -, rfl⟩ := List.mem_map.mp mem
    simp [rowText, objectText]
  constructor
  · rw [fed, handed, lines, nonempty, rowsFrom_eq_placed, List.map_map, List.filterMap_map]
    exact filterMap_places correct _
  · rw [left, text]
    exact openTail_eq_nil_iff.mpr (lines_closed _)

/-- The bytes of all clips of a run, cut out of the file. -/
def clipPayload (file : Bytes) (events : List FsmEvent) : Bytes :=
  (runClips events).flatMap fun clip => slice file clip.startOffset clip.totalLength

theorem places_admitted (places : List (Nat × Chunk)) :
    ∀ rec ∈ (places.filter ReadablePlace).map placeRecord, Admitted rec ∧ SeqAdmitted rec := by
  intro rec mem
  obtain ⟨p, here, rfl⟩ := List.mem_map.mp mem
  have readable : Readable (p.2.row p.1) := by simpa using (List.mem_filter.mp here).2
  have seq : (placeRecord p).seq ≤ maxSafeInteger := by
    have bound := readable.seq.2
    change (p.2.row p.1).seq.toNat ≤ 2 ^ 53 - 1
    omega
  refine ⟨⟨rfl, seq, readable.offset, readable.length⟩, rfl, ?_⟩
  have limit : maxSafeInteger < 2 ^ 64 - 1 := by decide
  omega

theorem satisfies_of_recordsOf {P : SmMetaRecord → Prop} {events : List FsmEvent}
    (all : ∀ rec ∈ recordsOf events, P rec) : ∀ e ∈ events, e.Satisfies P := by
  intro e mem
  cases e with
  | idle => trivial
  | record rec clipMs nowMs => exact all rec (List.mem_flatMap.mpr ⟨_, mem, by simp [recordOf]⟩)

theorem clipPayload_eq (file : Bytes) {events : List FsmEvent}
    (admitted : ∀ e ∈ events, e.Satisfies Admitted) :
    clipPayload file events = (acceptedRecords events (fsmRun smFsmReset events).2).flatMap
      fun rec => slice file rec.offset rec.length := by
  simp only [clipPayload, slice_eq_filterMap]
  have cut := congrArg (List.filterMap fun i => file[i]?) (runClips_bytes admitted)
  rw [List.filterMap_flatMap, List.filterMap_flatMap] at cut
  exact cut

theorem slice_records {places : List (Nat × Chunk)} (wrote : Wrote s chunks)
    (part : places.Sublist (placed 0 chunks)) :
    (places.map placeRecord).flatMap (fun rec => slice s.bin rec.offset rec.length) =
      payloads (places.map Prod.snd) := by
  rw [payloads, List.flatMap_map, List.flatMap_map]
  apply List.flatMap_congr
  intro p mem
  have found := slice_placed [] chunks p (part.subset mem)
  rw [List.nil_append, ← wrote.bin] at found
  exact found

/-- The clips of a session whose sidecar has been read whole. -/
theorem wrote_clips (correct : c.IsCorrect d) (wrote : Wrote s chunks)
    {calls : List (List Read)} {drained : Drained}
    (ran : drainCalls c start calls = some drained) (whole : delivered calls = s.sidecar)
    {events : List FsmEvent} (same : recordsOf events = drained.fed) :
    ∃ kept : List Chunk, kept.Sublist (readableChunks chunks) ∧
      clipPayload s.bin events = payloads kept ∧
      ((∀ p ∈ events.zip (fsmRun smFsmReset events).2, NotTimedOut p) →
        kept = maxima (fun chunk => chunk.seq.toNat) (readableChunks chunks)) := by
  rw [(fed_of_wrote correct wrote ran whole).1] at same
  have admitted := places_admitted (placed 0 chunks)
  rw [← same] at admitted
  have bytes := clipPayload_eq s.bin (satisfies_of_recordsOf fun rec here => (admitted rec here).1)
  have cut := fun places (part : List.Sublist places _) =>
    slice_records wrote (part.trans (List.filter_sublist (p := fun p => ReadablePlace p)))
  by_cases quiet : ∀ p ∈ events.zip (fsmRun smFsmReset events).2, NotTimedOut p
  · have all := accepted_eq_above
      (satisfies_of_recordsOf fun rec here => (admitted rec here).2) quiet
    rw [same, above_map] at all
    refine ⟨(above (fun p => (placeRecord p).seq) 0 _).map Prod.snd,
      (above_sublist 0 _).map Prod.snd, ?_, fun _ => ?_⟩
    · rw [bytes, all]
      exact cut _ (above_sublist 0 _)
    · rw [maxima, readableChunks, above_map]
      rfl
  · have part := acceptedRecords_sublist events (fsmRun smFsmReset events).2
    rw [same] at part
    obtain ⟨places, smaller, records⟩ := List.sublist_map_iff.mp part
    refine ⟨places.map Prod.snd, smaller.map Prod.snd, ?_, fun silent => absurd silent quiet⟩
    rw [bytes, records]
    exact cut places smaller

/-- Every session of a run of the server has been made of some packets. -/
theorem session_made {packets : List Packet} {srv : ServerState}
    (served : packets.foldlM (recv host) listening = some srv) (mem : s ∈ srv.sessions) :
    ∃ body chunks, MadeOf packets s body chunks := by
  rcases List.mem_append.mp mem with closed | opened
  · exact (serve_served served).closed s closed
  · obtain ⟨before, body, chunks, -, made⟩ :=
      (serve_served served).opened s (Option.mem_toList.mp opened)
    exact ⟨body, chunks, made⟩

/-- A machine on which every session is started and ended. -/
def steadyHost : Host := ⟨fun _ _ => true, fun _ _ => true⟩

def twoChunks : List Packet :=
  [.strt (ascii "cam"), .dataseq 1 0 (ascii "aGk="), .dataseq 3 5 (ascii "eW8="), .endSession]

private theorem twoChunks_served : ∃ srv, twoChunks.foldlM (recv steadyHost) listening = some srv ∧
    srv.sessions.length = 1 := by
  have counted : (twoChunks.foldlM (recv steadyHost) listening).map
      (fun srv => srv.sessions.length) =
      some 1 := by decide +kernel
  exact Option.map_eq_some_iff.mp counted

end StreamDataPipeline.UdpStream.Ingested
