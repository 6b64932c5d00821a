/- From the client over a lossy network to the clips. -/

import StreamDataPipeline.UdpStream.Client
import StreamDataPipeline.UdpStream.Ingested

/-!
Between the start and the end of a session, the datagrams of the client are lost, repeated and
reordered at will.
-/

set_option autoImplicit false
set_option relaxedAutoImplicit false

namespace StreamDataPipeline.UdpStream.Delivery

open Foundations Foundations.ByteString Foundations.Decimal Foundations.Reassembly
  Foundations.RunningMaxima Foundations.Json Foundations.JsonText
open Lib.Base64 Lib.Buffer Lib.JsonlCodec StreamMerge.Fsm StreamMerge.FsmRun
  StreamMerge.SequenceOrder StreamMerge.AcceptedRecords StreamMerge.DrainMeta
open PythonBase64 Sidecar Server Ingested Datagram Client

theorem short_of_safe {v : Int} (safe : |v| ≤ 2 ^ 53 - 1) : Short v := by
  have small : v.natAbs < 10 ^ 16 := by
    rw [Int.abs_eq_natAbs] at safe
    omega
  rw [Short, decimalNat]
  split_ifs with zero
  · decide
  · rw [List.length_map, List.length_reverse]
    exact ((Nat.digits_length_le_iff (by decide) _).mpr small).trans (by decide)

variable {host : Host}

theorem body_served {s : Session} {written : List Chunk} (wrote : Wrote s written)
    {body : List Packet} (stays : ∀ packet ∈ body, packet.Stays)
    {table : Table (Int × Int) UInt8} {chunks : List Chunk}
    (got : receiveAll s.segments body = some (table, chunks)) :
    ∃ s', body.foldlM (recv host) ⟨some s, [], true⟩ = some ⟨some s', [], true⟩ ∧ s'.id = s.id ∧
      Wrote s' (written ++ chunks) := by
  induction body generalizing s written chunks with
  | nil =>
      cases got
      exact ⟨s, rfl, rfl, by simpa using wrote⟩
  | cons packet body ih =>
      obtain ⟨here, later⟩ := List.forall_mem_cons.mp stays
      obtain ⟨⟨next, first⟩, one, tail⟩ := Option.bind_eq_some_iff.mp got
      obtain ⟨⟨last, rest⟩, all, equal⟩ := Option.bind_eq_some_iff.mp tail
      cases equal
      have turned : recv host ⟨some s, [], true⟩ packet =
          some ⟨some (first.foldl writePayload { s with segments := next }), [], true⟩ := by
        cases packet with
        | shutdown | strt | endSession => cases here
        | dataseq | segment | ignored => simp [recv, sessionStep_eq, one]
      have start : Wrote { s with segments := next } written :=
        ⟨wrote.bin, wrote.sidecar, wrote.offset, wrote.counted, wrote.bytes⟩
      obtain ⟨grown, same, kept⟩ := writePayloads_wrote start first
      have table_kept :
          (first.foldl writePayload { s with segments := next }).segments = next := kept
      rw [← table_kept] at all
      obtain ⟨s', ran, id, final⟩ := ih grown later all
      rw [List.foldlM_cons, turned, ← List.append_assoc]
      exact ⟨s', ran, id.trans same, final⟩

theorem stream_served {session : Bytes} (serves : host.Serves session) {body : List Packet}
    (stays : ∀ packet ∈ body, packet.Stays) {table : Table (Int × Int) UInt8}
    {chunks : List Chunk} (got : receiveAll ∅ body = some (table, chunks)) :
    ∃ s, (Packet.strt session :: body ++ [Packet.endSession]).foldlM (recv host) listening =
        some ⟨none, [s], true⟩ ∧ s.id = session ∧ Wrote s chunks := by
  obtain ⟨s, ran, id, wrote⟩ := @body_served host _ _ (newSession_wrote session) _ stays _ _ got
  obtain ⟨opens, ends⟩ := serves
  have first : recv host listening (.strt session) =
      some ⟨some (newSession session), [], true⟩ := by
    simp [recv, listening, endSession, startSession, opens]
  have last : recv host ⟨some s, [], true⟩ .endSession = some ⟨none, [s], true⟩ := by
    have closes : host.ends 0 s.id = true := id ▸ ends
    simp [recv, endSession, closes]
  refine ⟨s, ?_, id, wrote⟩
  rw [List.cons_append, List.foldlM_cons, first]
  change (body ++ [Packet.endSession]).foldlM (recv host) ⟨some (newSession session), [], true⟩ = _
  rw [List.foldlM_append, ran]
  exact congrArg (Option.bind · pure) last

theorem placed_inside {offset : Nat} {chunks : List Chunk} :
    ∀ p ∈ placed offset chunks,
      p.2 ∈ chunks ∧ p.1 + p.2.payload.length ≤ offset + (payloads chunks).length := by
  induction chunks generalizing offset with
  | nil => simp [placed]
  | cons chunk rest ih =>
      have length : (payloads (chunk :: rest)).length =
          chunk.payload.length + (payloads rest).length := by simp [payloads]
      rw [placed, List.forall_mem_cons, length]
      refine ⟨⟨List.mem_cons_self, show _ + chunk.payload.length ≤ _ by omega⟩, fun p mem => ?_⟩
      obtain ⟨inside, bound⟩ := ih p mem
      exact ⟨List.mem_cons_of_mem _ inside, by omega⟩

theorem readableChunks_of_safe {chunks : List Chunk}
    (size : (payloads chunks).length ≤ 2 ^ 53 - 1)
    (numbers : ∀ chunk ∈ chunks, (0 ≤ chunk.seq ∧ chunk.seq ≤ 2 ^ 53 - 1) ∧
      |chunk.tsMs| ≤ 2 ^ 53 - 1) : readableChunks chunks = chunks := by
  have all : (placed 0 chunks).filter ReadablePlace = placed 0 chunks := by
    rw [List.filter_eq_self]
    intro p mem
    obtain ⟨inside, bound⟩ := placed_inside p mem
    obtain ⟨seq, tsMs⟩ := numbers p.2 inside
    rw [Nat.zero_add] at bound
    exact decide_eq_true ⟨seq, show p.1 ≤ _ by omega, show p.2.payload.length ≤ _ by omega, tsMs⟩
  rw [readableChunks, all, map_snd_placed]

theorem exists_arrived {α : Type} {line : α → Bytes} {sent : List α} {body : List Bytes}
    (copies : ∀ l ∈ body, l ∈ sent.map line) :
    ∃ arrived : List α, (∀ x ∈ arrived, x ∈ sent) ∧ body = arrived.map line := by
  induction body with
  | nil => exact ⟨[], by simp, rfl⟩
  | cons l body ih =>
      obtain ⟨here, later⟩ := List.forall_mem_cons.mp copies
      obtain ⟨x, mem, rfl⟩ := List.mem_map.mp here
      obtain ⟨arrived, genuine, rfl⟩ := ih later
      exact ⟨x :: arrived, List.forall_mem_cons.mpr ⟨mem, genuine⟩, rfl⟩

section RawStream

variable {c : CJson} {d : Dialect} {args : ClientArgs} {file : Bytes}

/-- What the server makes of a datagram with a chunk. -/
def rawChunk (args : ClientArgs) (chunk : Nat × Bytes) : Chunk :=
  ⟨seqOf args.gap chunk.1, chunkTsMs args chunk.1, chunk.2, .raw, false⟩

def rawPacket (args : ClientArgs) (chunk : Nat × Bytes) : Packet :=
  .dataseq (seqOf args.gap chunk.1) (chunkTsMs args chunk.1) (encodePadded chunk.2)

theorem receiveAll_raw (args : ClientArgs) (arrived : List (Nat × Bytes)) :
    receiveAll ∅ (arrived.map (rawPacket args)) = some (∅, arrived.map (rawChunk args)) := by
  induction arrived with
  | nil => rfl
  | cons chunk rest ih =>
      rw [List.map_cons, receiveAll, rawPacket, received, b64decode_encodePadded]
      simp only [Option.map_some, Option.bind_eq_bind, Option.bind_some, ih]
      rfl

/-- The numbers of the chunks stay in the safe range. -/
def SafeNumbers (args : ClientArgs) (file : Bytes) : Prop :=
  file.length + 3 ≤ 2 ^ 53 - 1 ∧
    ∀ chunk ∈ sentChunks args file, |chunkTsMs args chunk.1| ≤ 2 ^ 53 - 1

theorem sentChunks_safe (safe : SafeNumbers args file) :
    ∀ chunk ∈ sentChunks args file, chunk.2 ≠ [] ∧
      ((0 : Int) ≤ seqOf args.gap chunk.1 ∧ (seqOf args.gap chunk.1 : Int) ≤ 2 ^ 53 - 1) ∧
      |chunkTsMs args chunk.1| ≤ 2 ^ 53 - 1 := by
  intro chunk mem
  obtain ⟨-, below, nonempty⟩ := (streamChunks_numbers file.length 0 file).2 chunk mem
  have seq := seqOf_le args.gap chunk.1
  have size := safe.1
  exact ⟨nonempty, ⟨by omega, by omega⟩, safe.2 chunk mem⟩

theorem readDatagram_chunkLine (safe : SafeNumbers args file) :
    ∀ chunk ∈ sentChunks args file,
      readDatagram (chunkLine args chunk) = rawPacket args chunk := by
  intro chunk mem
  obtain ⟨nonempty, seq, tsMs⟩ := sentChunks_safe safe chunk mem
  exact readDatagram_dataseq (short_of_safe (abs_le.mpr ⟨by omega, seq.2⟩)) (short_of_safe tsMs)
    nonempty

/-- The session that the server makes of the chunks that arrive. -/
theorem chunks_served (serves : host.Serves args.session) (word : IsWord args.session)
    (safe : SafeNumbers args file) {arrived : List (Nat × Bytes)}
    (copies : ∀ chunk ∈ arrived, chunk ∈ sentChunks args file) :
    ∃ s, ((strtLine args.session :: arrived.map (chunkLine args) ++ [ascii "END"]).map
          readDatagram).foldlM (recv host) listening = some ⟨none, [s], true⟩ ∧
      s.id = args.session ∧ Wrote s (arrived.map (rawChunk args)) := by
  have packets : arrived.map (fun chunk => readDatagram (chunkLine args chunk)) =
      arrived.map (rawPacket args) :=
    List.map_congr_left fun chunk mem => readDatagram_chunkLine safe chunk (copies chunk mem)
  have stays : ∀ packet ∈ arrived.map (rawPacket args), packet.Stays := by
    intro packet mem
    obtain ⟨chunk, -, rfl⟩ := List.mem_map.mp mem
    trivial
  obtain ⟨s, ran, id, wrote⟩ := stream_served serves stays (receiveAll_raw args arrived)
  refine ⟨s, ?_, id, wrote⟩
  rw [List.map_append, List.map_cons, List.map_map, readDatagram_strt word]
  exact (congrArg (fun body => (Packet.strt args.session :: body ++ [Packet.endSession]).foldlM
    (recv host) listening) packets).trans ran

theorem payloads_raw (args : ClientArgs) (kept : List (Nat × Bytes)) :
    payloads (kept.map (rawChunk args)) = kept.flatMap Prod.snd := by
  rw [payloads, List.flatMap_map]
  rfl

/-- The chunks that the clips of the session hold. -/
theorem chunk_clips (correct : c.IsCorrect d) (safe : SafeNumbers args file)
    {arrived : List (Nat × Bytes)} (copies : ∀ chunk ∈ arrived, chunk ∈ sentChunks args file)
    {s : Session} (wrote : Wrote s (arrived.map (rawChunk args)))
    (size : s.bin.length ≤ 2 ^ 53 - 1) {calls : List (List Read)} {drained : Drained}
    (drains : drainCalls c start calls = some drained) (whole : delivered calls = s.sidecar)
    {events : List FsmEvent} (same : recordsOf events = drained.fed) :
    ∃ kept : List (Nat × Bytes), kept.Sublist arrived ∧
      clipPayload s.bin events = kept.flatMap Prod.snd ∧
      ((∀ p ∈ events.zip (fsmRun smFsmReset events).2, NotTimedOut p) →
        kept.Sublist (sentChunks args file) ∧
        (kept = sentChunks args file ↔ ∀ chunk ∈ sentChunks args file,
          ∃ before after, arrived = before ++ chunk :: after ∧
            ∀ other ∈ before, other.1 < chunk.1)) := by
  have numbers : ∀ chunk ∈ arrived.map (rawChunk args),
      (0 ≤ chunk.seq ∧ chunk.seq ≤ 2 ^ 53 - 1) ∧ |chunk.tsMs| ≤ 2 ^ 53 - 1 := by
    intro chunk mem
    obtain ⟨sent, here, rfl⟩ := List.mem_map.mp mem
    exact (sentChunks_safe safe sent (copies sent here)).2
  obtain ⟨kept, part, cut, silent⟩ := wrote_clips correct wrote drains whole same
  rw [wrote.bin] at size
  rw [readableChunks_of_safe size numbers] at part silent
  by_cases quiet : ∀ p ∈ events.zip (fsmRun smFsmReset events).2, NotTimedOut p
  · have all := silent quiet
    rw [maxima, above_map] at all
    have key : (fun chunk : Nat × Bytes => (rawChunk args chunk).seq.toNat) =
        fun chunk => seqOf args.gap chunk.1 := rfl
    rw [key] at all
    have rises : (sentChunks args file).Pairwise fun x y =>
        seqOf args.gap x.1 < seqOf args.gap y.1 :=
      (streamChunks_numbers file.length 0 file).1.imp fun less => seqOf_rises args.gap less
    have monotone : StrictMono (seqOf args.gap) := fun _ _ less => seqOf_rises args.gap less
    refine ⟨maxima (fun chunk => seqOf args.gap chunk.1) arrived, above_sublist 0 arrived, ?_,
      fun _ => ⟨maxima_sublist rises copies, ?_⟩⟩
    · rw [cut, all]
      exact payloads_raw args _
    · rw [maxima_eq_iff rises copies]
      simp only [monotone.lt_iff_lt]
  · obtain ⟨sent, smaller, rfl⟩ := List.sublist_map_iff.mp part
    exact ⟨sent, smaller, cut.trans (payloads_raw args sent), fun silent => absurd silent quiet⟩

/-- A run of the client that ends has sent the chunks between its first and its last line. -/
theorem sendStream_lines {first last : Bytes} {sent : List Bytes}
    (sends : sendStream args file = some (first :: sent ++ [last])) :
    sent = (sentChunks args file).map (chunkLine args) ∧ first = strtLine args.session ∧
      last = ascii "END" ∧ sentChunks args file ≠ [] := by
  rw [sendStream] at sends
  split_ifs at sends with none
  obtain ⟨same, ends⟩ := List.append_inj' (mapM_sendLine sends).1 rfl
  obtain ⟨head, tail⟩ := List.cons.inj same
  exact ⟨tail.symm, head.symm, (List.cons.inj ends).1.symm, none⟩

theorem sentChunks_whole (some_chunk : sentChunks args file ≠ []) (unlimited : args.maxChunks ≤ 0) :
    (sentChunks args file).flatMap Prod.snd = file := by
  refine streamChunks_whole ?_ unlimited 0 le_rfl
  by_contra zero
  apply some_chunk
  rw [sentChunks, Nat.eq_zero_of_not_pos zero]
  cases file <;> simp [streamChunks]

def demoArgs : ClientArgs := ⟨ascii "cam", false, 2, 0, 40, 1000, 2⟩

end RawStream

/-- One fragment of a segment; segments are counted from zero. -/
structure Piece where
  segment : Nat
  index : Nat
  count : Nat
  part : Bytes
  deriving DecidableEq

def piecesFrom (size : Nat) : Nat → List Bytes → List Piece
  | _, [] => []
  | k, data :: rest =>
      (fragments size data).mapIdx (fun i part => ⟨k, i, (fragments size data).length, part⟩) ++
        piecesFrom size (k + 1) rest

section SegmentStream

variable {c : CJson} {d : Dialect} {args : ClientArgs} {segments : List Bytes}

def sentPieces (args : ClientArgs) (segments : List Bytes) : List Piece :=
  piecesFrom args.wireFragmentSize.toNat 0 segments

/-- The sequence and the time stamp of a segment. -/
def segmentKey (args : ClientArgs) (k : Nat) : Int × Int :=
  (seqOf args.gap (k + 1), k * stepMs args)

def pieceLine (args : ClientArgs) (p : Piece) : Bytes :=
  segmentLine (segmentKey args p.segment).1 (segmentKey args p.segment).2 p.index p.count p.part

theorem mem_piecesFrom {size k : Nat} {p : Piece} :
    p ∈ piecesFrom size k segments ↔ ∃ j data, segments[j]? = some data ∧ p.segment = k + j ∧
      p.count = (fragments size data).length ∧ (fragments size data)[p.index]? = some p.part := by
  induction segments generalizing k with
  | nil => simp [piecesFrom]
  | cons data rest ih =>
      rw [piecesFrom, List.mem_append, ih, List.mem_mapIdx]
      constructor
      · rintro (⟨i, inside, rfl⟩ | ⟨j, later, there, number, count, part⟩)
        · exact ⟨0, data, rfl, rfl, rfl, List.getElem?_eq_getElem inside⟩
        · exact ⟨j + 1, later, there, by omega, count, part⟩
      · rintro ⟨j, later, there, number, count, part⟩
        cases j with
        | zero =>
            obtain rfl : data = later := Option.some.inj there
            obtain ⟨inside, equal⟩ := List.getElem?_eq_some_iff.mp part
            refine .inl ⟨p.index, inside, ?_⟩
            obtain ⟨segment, index, count', part'⟩ := p
            obtain rfl : segment = k := number
            obtain rfl : count' = _ := count
            exact congrArg (Piece.mk segment index _) equal
        | succ j => exact .inr ⟨j, later, there, by omega, count, part⟩

theorem sendSegments_eq_some {sent : Nat} {lines : List Bytes}
    (sends : sendSegments args sent segments = some lines) :
    lines = (piecesFrom args.wireFragmentSize.toNat sent segments).map (pieceLine args) ∧
      ∀ data ∈ segments, data ≠ [] ∧ 0 < args.wireFragmentSize := by
  induction segments generalizing sent lines with
  | nil =>
      cases sends
      exact ⟨rfl, by simp⟩
  | cons data rest ih =>
      obtain ⟨here, sentHere, sends⟩ := Option.bind_eq_some_iff.mp sends
      obtain ⟨later, sentLater, equal⟩ := Option.bind_eq_some_iff.mp sends
      cases equal
      obtain ⟨rfl, all⟩ := ih sentLater
      rw [sendSegment] at sentHere
      split_ifs at sentHere with refused
      rw [not_or, not_le] at refused
      cases sentHere
      refine ⟨?_, List.forall_mem_cons.mpr ⟨refused, all⟩⟩
      simp only [piecesFrom, List.map_append, List.mapIdx_eq_zipIdx_map, List.map_map]
      rfl

def pieceFragment (args : ClientArgs) (p : Piece) : Fragment (Int × Int) UInt8 :=
  ⟨segmentKey args p.segment, p.index, p.count, p.part⟩

/-- What the server makes of a datagram with a fragment. -/
def piecePacket (args : ClientArgs) (p : Piece) : Packet :=
  .segment (segmentKey args p.segment).1 (segmentKey args p.segment).2 p.index p.count
    (encodePadded p.part)

def segmentChunk (message : (Int × Int) × Bytes) : Chunk :=
  ⟨message.1.1, message.1.2, message.2, .mpegts, true⟩

theorem receiveAll_pieces (args : ClientArgs) (table : Table (Int × Int) UInt8)
    {arrived : List Piece} (inside : ∀ p ∈ arrived, p.index < p.count) :
    receiveAll table (arrived.map (piecePacket args)) =
      some ((Mealy.run collect table (arrived.map (pieceFragment args))).1,
        ((Mealy.run collect table (arrived.map (pieceFragment args))).2.filterMap id).map
          segmentChunk) := by
  induction arrived generalizing table with
  | nil => rfl
  | cons p rest ih =>
      obtain ⟨here, later⟩ := List.forall_mem_cons.mp inside
      have valid : ¬ ((p.count : Int) ≤ 0 ∨ (p.index : Int) < 0 ∨ (p.count : Int) ≤ p.index) := by
        omega
      have one : received table (piecePacket args p) =
          some ((collect table (pieceFragment args p)).1,
            ((collect table (pieceFragment args p)).2.map segmentChunk).toList) := by
        rw [piecePacket, received, if_neg valid, b64decode_encodePadded]
        simp only [Int.toNat_natCast, Option.map_some]
        have key := collect_key table (pieceFragment args p)
        rw [pieceFragment] at key ⊢
        refine congrArg some (Prod.ext rfl (congrArg Option.toList ?_))
        apply Option.map_congr
        intro message mem
        rw [segmentChunk, key message mem]
      rw [List.map_cons, List.map_cons, receiveAll, one, Mealy.run_cons]
      simp only [Option.bind_eq_bind, Option.bind_some, ih _ later, List.filterMap_cons]
      cases (collect table (pieceFragment args p)).2 <;> rfl

theorem segmentKey_injective (args : ClientArgs) : Function.Injective (segmentKey args) := by
  intro j k equal
  have seqs : (seqOf args.gap (j + 1) : Int) = seqOf args.gap (k + 1) := congrArg Prod.fst equal
  have monotone : StrictMono (seqOf args.gap) := fun _ _ less => seqOf_rises args.gap less
  have same := monotone.injective (Int.natCast_inj.mp seqs)
  omega

/-- The numbers of the segments stay in the safe range. -/
structure SafeSegments (args : ClientArgs) (segments : List Bytes) : Prop where
  seqs : segments.length + 3 ≤ 2 ^ 53 - 1
  stamps : ∀ k < segments.length, |(k : Int) * stepMs args| ≤ 2 ^ 53 - 1
  sizes : ∀ data ∈ segments, data.length ≤ 2 ^ 53 - 1

theorem segmentKey_safe (safe : SafeSegments args segments) {k : Nat} (less : k < segments.length) :
    ((0 : Int) ≤ (segmentKey args k).1 ∧ (segmentKey args k).1 ≤ 2 ^ 53 - 1) ∧
      |(segmentKey args k).2| ≤ 2 ^ 53 - 1 := by
  have seq := seqOf_le args.gap (k + 1)
  have few := safe.seqs
  refine ⟨⟨?_, ?_⟩, safe.stamps k less⟩
  · exact Int.natCast_nonneg _
  · change (seqOf args.gap (k + 1) : Int) ≤ _
    omega

theorem sentPiece_spec {p : Piece} (mem : p ∈ sentPieces args segments) :
    ∃ data, segments[p.segment]? = some data ∧
      p.count = (fragments args.wireFragmentSize.toNat data).length ∧
      (fragments args.wireFragmentSize.toNat data)[p.index]? = some p.part := by
  obtain ⟨j, data, there, number, count, part⟩ := mem_piecesFrom.mp mem
  rw [Nat.zero_add] at number
  exact ⟨data, number ▸ there, count, part⟩

theorem readDatagram_pieceLine (positive : 0 < args.wireFragmentSize)
    (safe : SafeSegments args segments) :
    ∀ p ∈ sentPieces args segments, readDatagram (pieceLine args p) = piecePacket args p := by
  intro p mem
  obtain ⟨data, there, count, part⟩ := sentPiece_spec mem
  have size : 0 < args.wireFragmentSize.toNat := by omega
  have less := (List.getElem?_eq_some_iff.mp there).1
  have inside := (List.getElem?_eq_some_iff.mp part).1
  have long := (length_fragments_le size data).trans (safe.sizes data (List.mem_of_getElem? there))
  obtain ⟨seq, tsMs⟩ := segmentKey_safe safe less
  refine readDatagram_segment ⟨short_of_safe (abs_le.mpr ⟨by omega, seq.2⟩), short_of_safe tsMs,
    short_of_safe (abs_le.mpr ⟨by omega, by omega⟩),
    short_of_safe (abs_le.mpr ⟨by omega, by omega⟩)⟩ ?_
  exact fragments_nonempty size data p.part (List.mem_of_getElem? part)

/-- The fragments that the client sent under a key. -/
noncomputable def sentParts (args : ClientArgs) (segments : List Bytes) :
    Sent (Int × Int) UInt8 := fun key =>
  (Function.partialInv (segmentKey args) key).bind fun k =>
    segments[k]?.map (fragments args.wireFragmentSize.toNat)

theorem sentParts_key (k : Nat) : sentParts args segments (segmentKey args k) =
    segments[k]?.map (fragments args.wireFragmentSize.toNat) := by
  rw [sentParts, Function.partialInv_left (segmentKey_injective args) k, Option.bind_some]

theorem sentParts_some {key : Int × Int} {parts : List Bytes}
    (sent : sentParts args segments key = some parts) :
    ∃ k data, segmentKey args k = key ∧ segments[k]? = some data ∧
      fragments args.wireFragmentSize.toNat data = parts := by
  obtain ⟨k, inverse, cut⟩ := Option.bind_eq_some_iff.mp sent
  obtain ⟨data, there, equal⟩ := Option.map_eq_some_iff.mp cut
  exact ⟨k, data, ((segmentKey_injective args).isPartialInv k key).mp inverse,
    there, equal⟩

/-- How often a fragment has arrived. -/
def arrivalsOf (k i : Nat) (arrived : List Piece) : Nat :=
  arrived.countP fun p => p.segment = k ∧ p.index = i

theorem arrivals_pieces (k i : Nat) (arrived : List Piece) :
    arrivals (segmentKey args k) i (arrived.map (pieceFragment args)) = arrivalsOf k i arrived := by
  rw [arrivals, List.countP_map, arrivalsOf]
  congr 1
  funext p
  rw [Function.comp_apply]
  exact decide_eq_decide.mpr (by simp [pieceFragment, (segmentKey_injective args).eq_iff])

/-- The bytes of a segment. -/
def segmentAt (segments : List Bytes) (k : Nat) : Bytes := segments[k]?.getD []

theorem messages_segments (positive : 0 < args.wireFragmentSize)
    {messages : List ((Int × Int) × Bytes)}
    (genuine : ∀ message ∈ messages, ∃ parts, sentParts args segments message.1 = some parts ∧
      message.2 = parts.flatten) :
    ∃ done : List Nat, (∀ k ∈ done, k < segments.length) ∧
      messages = done.map fun k => (segmentKey args k, segmentAt segments k) := by
  induction messages with
  | nil => exact ⟨[], by simp, rfl⟩
  | cons message rest ih =>
      obtain ⟨here, later⟩ := List.forall_mem_cons.mp genuine
      obtain ⟨done, few, equal⟩ := ih later
      obtain ⟨parts, sent, text⟩ := here
      obtain ⟨k, data, key, there, cut⟩ := sentParts_some sent
      have bytes : message = (segmentKey args k, segmentAt segments k) := by
        refine Prod.ext key.symm ?_
        rw [text, ← cut, fragments_flatten (by omega), segmentAt, there]
        rfl
      refine ⟨k :: done, ?_, ?_⟩
      · exact List.forall_mem_cons.mpr ⟨(List.getElem?_eq_some_iff.mp there).1, few⟩
      · rw [List.map_cons, bytes, equal]

theorem times_segments {answers : List (Option ((Int × Int) × Bytes))} {done : List Nat}
    (messages : answers.filterMap id =
      done.map fun k => (segmentKey args k, segmentAt segments k)) (k : Nat) :
    times (segmentKey args k) answers = done.count k := by
  have given : times (segmentKey args k) answers =
      (answers.filterMap id).countP fun message => message.1 = segmentKey args k := by
    rw [times, List.countP_filterMap]
    congr 1
    funext answer
    cases answer <;> simp
  rw [given, messages, List.countP_map, List.count]
  congr 1
  funext j
  simp [(segmentKey_injective args).eq_iff, beq_eq_decide]

theorem pieces_genuine {arrived : List Piece}
    (copies : ∀ p ∈ arrived, p ∈ sentPieces args segments) :
    ∀ f ∈ arrived.map (pieceFragment args), Genuine (sentParts args segments) f := by
  intro f mem
  obtain ⟨p, here, rfl⟩ := List.mem_map.mp mem
  obtain ⟨data, there, count, part⟩ := sentPiece_spec (copies p here)
  refine ⟨fragments args.wireFragmentSize.toNat data, ?_, count, part⟩
  exact (sentParts_key p.segment).trans (by rw [there]; rfl)

/-- The segments that the server completes, in order, are counted by their fragments. -/
structure Completed (args : ClientArgs) (segments : List Bytes) (arrived : List Piece)
    (done : List Nat) : Prop where
  sent : ∀ k ∈ done, k < segments.length
  once : ∀ k data, segments[k]? = some data →
    ∀ i < (fragments args.wireFragmentSize.toNat data).length,
      done.count k ≤ arrivalsOf k i arrived
  whole : ∀ k data, segments[k]? = some data →
    (k ∈ done ↔ ∀ i < (fragments args.wireFragmentSize.toNat data).length,
      0 < arrivalsOf k i arrived)

theorem pieces_received (positive : 0 < args.wireFragmentSize)
    (nonempty : ∀ data ∈ segments, data ≠ []) {arrived : List Piece}
    (copies : ∀ p ∈ arrived, p ∈ sentPieces args segments) :
    ∃ table, ∃ done : List Nat, Completed args segments arrived done ∧
      receiveAll ∅ (arrived.map (piecePacket args)) = some (table,
        done.map fun k => segmentChunk (segmentKey args k, segmentAt segments k)) := by
  have gathered := collect_run _ _ (pieces_genuine copies)
  have inside : ∀ p ∈ arrived, p.index < p.count := by
    intro p mem
    obtain ⟨data, -, count, part⟩ := sentPiece_spec (copies p mem)
    exact count ▸ (List.getElem?_eq_some_iff.mp part).1
  have got := receiveAll_pieces args ∅ inside
  obtain ⟨done, few, messages⟩ := messages_segments positive gathered.genuine
  have counts := times_segments messages
  have key {k : Nat} {data : Bytes} (there : segments[k]? = some data) :
      sentParts args segments (segmentKey args k) =
        some (fragments args.wireFragmentSize.toNat data) := by
    rw [sentParts_key, there]
    rfl
  rw [messages, List.map_map] at got
  refine ⟨_, done, ⟨few, ?_, ?_⟩, got⟩
  · intro k data there i less
    have bound := gathered.once _ _ (key there) i less
    rwa [counts, arrivals_pieces] at bound
  · intro k data there
    have given := gathered.given_iff (key there)
      (fragments_ne_nil (by omega) (nonempty data (List.mem_of_getElem? there)))
    simp only [counts, arrivals_pieces] at given
    rw [← given, List.count_pos_iff]

theorem payloads_segments (args : ClientArgs) (segments : List Bytes) (kept : List Nat) :
    payloads (kept.map fun k => segmentChunk (segmentKey args k, segmentAt segments k)) =
      kept.flatMap (segmentAt segments) := by
  rw [payloads, List.flatMap_map]
  rfl

/-- The session that the server makes of the fragments that arrive. -/
theorem segments_served (serves : host.Serves args.session) (word : IsWord args.session)
    (positive : 0 < args.wireFragmentSize) (nonempty : ∀ data ∈ segments, data ≠ [])
    (safe : SafeSegments args segments) {arrived : List Piece}
    (genuine : ∀ p ∈ arrived, p ∈ sentPieces args segments) :
    ∃ s, ∃ done : List Nat,
      ((strtLine args.session :: arrived.map (pieceLine args) ++ [ascii "END"]).map
          readDatagram).foldlM (recv host) listening = some ⟨none, [s], true⟩ ∧
        s.id = args.session ∧ Completed args segments arrived done ∧
        Wrote s (done.map fun k => segmentChunk (segmentKey args k, segmentAt segments k)) := by
  obtain ⟨table, done, completed, got⟩ := pieces_received positive nonempty genuine
  have stays : ∀ packet ∈ arrived.map (piecePacket args), packet.Stays := by
    intro packet mem
    obtain ⟨p, -, rfl⟩ := List.mem_map.mp mem
    trivial
  have packets : arrived.map (fun p => readDatagram (pieceLine args p)) =
      arrived.map (piecePacket args) :=
    List.map_congr_left fun p mem => readDatagram_pieceLine positive safe p (genuine p mem)
  obtain ⟨s, ran, id, wrote⟩ := stream_served serves stays got
  refine ⟨s, done, ?_, id, completed, wrote⟩
  rw [List.map_append, List.map_cons, List.map_map, readDatagram_strt word]
  exact (congrArg (fun body => (Packet.strt args.session :: body ++ [Packet.endSession]).foldlM
    (recv host) listening) packets).trans ran

theorem segment_clips (correct : c.IsCorrect d) (safe : SafeSegments args segments)
    {done : List Nat} (few : ∀ k ∈ done, k < segments.length) {s : Session}
    (wrote : Wrote s (done.map fun k => segmentChunk (segmentKey args k, segmentAt segments k)))
    (size : s.bin.length ≤ 2 ^ 53 - 1) {calls : List (List Read)} {drained : Drained}
    (drains : drainCalls c start calls = some drained) (whole : delivered calls = s.sidecar)
    {events : List FsmEvent} (same : recordsOf events = drained.fed) :
    ∃ kept : List Nat, kept.Sublist done ∧
      clipPayload s.bin events = kept.flatMap (segmentAt segments) ∧
      ((∀ p ∈ events.zip (fsmRun smFsmReset events).2, NotTimedOut p) →
        kept.Sublist (List.range segments.length) ∧
        (kept = List.range segments.length ↔ ∀ k < segments.length,
          ∃ before after, done = before ++ k :: after ∧ ∀ j ∈ before, j < k)) := by
  have numbers : ∀ chunk ∈ done.map fun k =>
      segmentChunk (segmentKey args k, segmentAt segments k),
      (0 ≤ chunk.seq ∧ chunk.seq ≤ 2 ^ 53 - 1) ∧ |chunk.tsMs| ≤ 2 ^ 53 - 1 := by
    intro chunk mem
    obtain ⟨k, here, rfl⟩ := List.mem_map.mp mem
    exact segmentKey_safe safe (few k here)
  obtain ⟨kept, part, cut, silent⟩ := wrote_clips correct wrote drains whole same
  rw [wrote.bin] at size
  rw [readableChunks_of_safe size numbers] at part silent
  by_cases quiet : ∀ p ∈ events.zip (fsmRun smFsmReset events).2, NotTimedOut p
  · have all := silent quiet
    have key : (fun k => (segmentChunk (segmentKey args k, segmentAt segments k)).seq.toNat) =
        fun k => seqOf args.gap (k + 1) := rfl
    rw [maxima, above_map, key] at all
    have monotone : StrictMono fun k => seqOf args.gap (k + 1) := fun _ _ less =>
      seqOf_rises args.gap (Nat.succ_lt_succ less)
    have rises : (List.range segments.length).Pairwise fun j k =>
        seqOf args.gap (j + 1) < seqOf args.gap (k + 1) :=
      List.pairwise_lt_range.imp fun less => monotone less
    have members : ∀ k ∈ done, k ∈ List.range segments.length := fun k mem =>
      List.mem_range.mpr (few k mem)
    refine ⟨maxima (fun k => seqOf args.gap (k + 1)) done, above_sublist 0 done, ?_,
      fun _ => ⟨maxima_sublist rises members, ?_⟩⟩
    · rw [cut, all]
      exact payloads_segments args segments _
    · rw [maxima_eq_iff rises members]
      simp only [monotone.lt_iff_lt, List.mem_range]
  · obtain ⟨kept, smaller, rfl⟩ := List.sublist_map_iff.mp part
    exact ⟨kept, smaller, cut.trans (payloads_segments args segments kept),
      fun silent => absurd silent quiet⟩

theorem sendSegmentStream_lines {first last : Bytes} {sent : List Bytes}
    (sends : sendSegmentStream args segments = some (first :: sent ++ [last])) :
    (sent = (sentPieces args segments).map (pieceLine args) ∧
      first = strtLine args.session ∧ last = ascii "END") ∧
      segments ≠ [] ∧ 0 < args.wireFragmentSize ∧ ∀ data ∈ segments, data ≠ [] := by
  rw [sendSegmentStream] at sends
  split_ifs at sends with none
  obtain ⟨lines, cut, sends⟩ := Option.bind_eq_some_iff.mp sends
  obtain ⟨rfl, sentAll⟩ := sendSegments_eq_some cut
  obtain ⟨same, ends⟩ := List.append_inj' (mapM_sendLine sends).1 rfl
  obtain ⟨head, tail⟩ := List.cons.inj same
  obtain ⟨data, mem⟩ := List.exists_mem_of_ne_nil segments none
  exact ⟨⟨tail.symm, head.symm, (List.cons.inj ends).1.symm⟩, none, (sentAll data mem).2,
    fun data mem => (sentAll data mem).1⟩

end SegmentStream

end StreamDataPipeline.UdpStream.Delivery
