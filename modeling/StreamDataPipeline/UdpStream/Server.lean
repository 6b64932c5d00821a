/- The server that writes the payloads of UDP datagrams to session files. -/

import StreamDataPipeline.Foundations.Reassembly
import StreamDataPipeline.UdpStream.PythonBase64
import StreamDataPipeline.UdpStream.Sidecar

/-!
A session is its two files and the segments of which some fragments have arrived. An exception
ends the server: a payload that cannot be decoded, a session that cannot be started, and a
dispatcher that does not end in time.
-/

set_option autoImplicit false
set_option relaxedAutoImplicit false

namespace StreamDataPipeline.UdpStream.Server

open Foundations Foundations.ByteString Foundations.Reassembly
open PythonBase64 Sidecar

/-- What the server makes of a datagram. `ignored` is one that it only logs. -/
inductive Packet
  | shutdown
  | strt (session : Bytes)
  | endSession
  | dataseq (seq tsMs : Int) (payloadB64 : Bytes)
  | segment (seq tsMs fragIndex fragCount : Int) (payloadB64 : Bytes)
  | ignored
  deriving DecidableEq

/-- `bin` and `sidecar` are what was written to the two files. -/
structure Session where
  id : Bytes
  bin : Bytes
  sidecar : Bytes
  offset : Nat
  chunks : Nat
  bytes : Nat
  segments : Table (Int × Int) UInt8

/-- What the machine of the server does for a session, which is counted by those before it: the
directory, the files and the process can be made, and the process ends in time. -/
structure Host where
  opens : Nat → Bytes → Bool
  ends : Nat → Bytes → Bool

/-- The first session of a run is started and ended. -/
def Host.Serves (host : Host) (session : Bytes) : Prop :=
  host.opens 0 session = true ∧ host.ends 0 session = true

def newSession (session : Bytes) : Session := ⟨session, [], [], 0, 0, 0, ∅⟩

def startSession (host : Host) (count : Nat) (session : Bytes) : Option Session :=
  if host.opens count session then some (newSession session) else none

/-- A payload with the fields of its row. -/
structure Chunk where
  seq : Int
  tsMs : Int
  payload : Bytes
  mediaFormat : MediaFormat
  segmentAligned : Bool
  deriving DecidableEq

/-- The row of a chunk that starts at some offset. -/
def Chunk.row (chunk : Chunk) (offset : Nat) : SidecarRow where
  seq := chunk.seq
  offset := offset
  length := chunk.payload.length
  tsMs := chunk.tsMs
  mediaFormat := chunk.mediaFormat
  segmentAligned := chunk.segmentAligned

def writePayload (s : Session) (chunk : Chunk) : Session :=
  { s with
    bin := s.bin ++ chunk.payload
    sidecar := s.sidecar ++ (rowText (chunk.row s.offset) ++ [lf])
    offset := s.offset + chunk.payload.length
    chunks := s.chunks + 1
    bytes := s.bytes + chunk.payload.length }

/-- `none` is the exception of the decoder. -/
def writeChunk (s : Session) (seq tsMs : Int) (payloadB64 : Bytes) : Option Session := do
  let payload ← b64decode payloadB64
  some (writePayload s ⟨seq, tsMs, payload, .raw, false⟩)

def writeSegmentFragment (s : Session) (seq tsMs fragIndex fragCount : Int)
    (payloadB64 : Bytes) : Option Session :=
  if fragCount ≤ 0 ∨ fragIndex < 0 ∨ fragCount ≤ fragIndex then some s
  else do
    let payload ← b64decode payloadB64
    let kept := collect s.segments ⟨(seq, tsMs), fragIndex.toNat, fragCount.toNat, payload⟩
    match kept.2 with
    | none => some { s with segments := kept.1 }
    | some (_, segment) =>
        some (writePayload { s with segments := kept.1 } ⟨seq, tsMs, segment, .mpegts, true⟩)

/-- The packets that go to the session that is open. -/
def sessionStep (s : Session) : Packet → Option Session
  | .dataseq seq tsMs payloadB64 => writeChunk s seq tsMs payloadB64
  | .segment seq tsMs fragIndex fragCount payloadB64 =>
      writeSegmentFragment s seq tsMs fragIndex fragCount payloadB64
  | _ => some s

/-- The open session, the sessions that have their sentinel, and whether the loop goes on. -/
structure ServerState where
  current : Option Session
  closed : List Session
  running : Bool

def listening : ServerState := ⟨none, [], true⟩

/-- Touch the sentinel, close the files and wait for the dispatcher. -/
def endSession (host : Host) (srv : ServerState) : Option ServerState :=
  match srv.current with
  | none => some srv
  | some s =>
      if host.ends srv.closed.length s.id then
        some { srv with current := none, closed := srv.closed ++ [s] }
      else none

/-- One turn of the loop; `none` is an exception that ends it. -/
def recv (host : Host) (srv : ServerState) (packet : Packet) : Option ServerState :=
  if srv.running then
    match packet with
    | .shutdown => (endSession host srv).map fun srv => { srv with running := false }
    | .strt session => do
        let srv ← endSession host srv
        let s ← startSession host srv.closed.length session
        some { srv with current := some s }
    | .endSession => endSession host srv
    | _ => match srv.current with
      | none => some srv
      | some s => (sessionStep s packet).map fun s => { srv with current := some s }
  else some srv

/-- All sessions, the open one last. -/
def ServerState.sessions (srv : ServerState) : List Session := srv.closed ++ srv.current.toList

/-- What a packet of an open session brings: the table of fragments, and the chunk that it
completes. -/
def received (table : Table (Int × Int) UInt8) :
    Packet → Option (Table (Int × Int) UInt8 × List Chunk)
  | .dataseq seq tsMs payloadB64 =>
      (b64decode payloadB64).map fun payload => (table, [⟨seq, tsMs, payload, .raw, false⟩])
  | .segment seq tsMs fragIndex fragCount payloadB64 =>
      if fragCount ≤ 0 ∨ fragIndex < 0 ∨ fragCount ≤ fragIndex then some (table, [])
      else (b64decode payloadB64).map fun payload =>
        let kept := collect table ⟨(seq, tsMs), fragIndex.toNat, fragCount.toNat, payload⟩
        (kept.1, (kept.2.map fun message => ⟨seq, tsMs, message.2, .mpegts, true⟩).toList)
  | _ => some (table, [])

/-- The table after the packets, and their chunks in order. -/
def receiveAll : Table (Int × Int) UInt8 → List Packet →
    Option (Table (Int × Int) UInt8 × List Chunk)
  | table, [] => some (table, [])
  | table, packet :: rest => do
      let (table, chunks) ← received table packet
      let (table, more) ← receiveAll table rest
      some (table, chunks ++ more)

theorem sessionStep_eq (s : Session) (packet : Packet) :
    sessionStep s packet = (received s.segments packet).map fun got =>
      got.2.foldl writePayload { s with segments := got.1 } := by
  cases packet with
  | dataseq seq tsMs payloadB64 =>
      rw [sessionStep, writeChunk, received]
      cases b64decode payloadB64 <;> rfl
  | segment seq tsMs fragIndex fragCount payloadB64 =>
      rw [sessionStep, writeSegmentFragment, received]
      split_ifs
      · rfl
      · cases b64decode payloadB64 with
        | none => rfl
        | some payload =>
            dsimp only [Option.bind_eq_bind, Option.bind_some, Option.map_some]
            generalize collect s.segments
              ⟨(seq, tsMs), fragIndex.toNat, fragCount.toNat, payload⟩ = kept
            obtain ⟨table, answer⟩ := kept
            cases answer <;> rfl
  | _ => rfl

theorem receiveAll_append (table : Table (Int × Int) UInt8) (first second : List Packet) :
    receiveAll table (first ++ second) = (receiveAll table first).bind fun got =>
      (receiveAll got.1 second).map fun more => (more.1, got.2 ++ more.2) := by
  induction first generalizing table with
  | nil =>
      rw [List.nil_append, receiveAll, Option.bind_some]
      simp
  | cons packet rest ih =>
      rw [List.cons_append, receiveAll, receiveAll]
      cases received table packet with
      | none => rfl
      | some got =>
          simp only [Option.bind_eq_bind, Option.bind_some, ih]
          cases receiveAll got.1 rest with
          | none => rfl
          | some more =>
              simp only [Option.bind_some]
              cases receiveAll more.1 second <;> simp

/-- The rows of chunks of which the first starts at some offset. -/
def rowsFrom : Nat → List Chunk → List SidecarRow
  | _, [] => []
  | offset, chunk :: rest => chunk.row offset :: rowsFrom (offset + chunk.payload.length) rest

def payloads (chunks : List Chunk) : Bytes := chunks.flatMap Chunk.payload

theorem rowsFrom_append (offset : Nat) (first second : List Chunk) :
    rowsFrom offset (first ++ second) =
      rowsFrom offset first ++ rowsFrom (offset + (payloads first).length) second := by
  induction first generalizing offset with
  | nil => rfl
  | cons chunk rest ih =>
      have length : (payloads (chunk :: rest)).length =
          chunk.payload.length + (payloads rest).length := by simp [payloads]
      rw [List.cons_append, rowsFrom, rowsFrom, ih, length, Nat.add_assoc, List.cons_append]

/-- The files and the counters of a session are those of the chunks that were written. -/
structure Wrote (s : Session) (chunks : List Chunk) : Prop where
  bin : s.bin = payloads chunks
  sidecar : s.sidecar = (rowsFrom 0 chunks).flatMap fun row => rowText row ++ [lf]
  offset : s.offset = s.bin.length
  counted : s.chunks = chunks.length
  bytes : s.bytes = s.bin.length

theorem newSession_wrote (session : Bytes) : Wrote (newSession session) [] :=
  ⟨rfl, rfl, rfl, rfl, rfl⟩

theorem writePayload_wrote {s : Session} {chunks : List Chunk} (wrote : Wrote s chunks)
    (chunk : Chunk) : Wrote (writePayload s chunk) (chunks ++ [chunk]) where
  bin := by simp [writePayload, wrote.bin, payloads]
  sidecar := by
    have here : s.offset = 0 + (payloads chunks).length := by
      rw [wrote.offset, wrote.bin, Nat.zero_add]
    rw [rowsFrom_append, List.flatMap_append, ← wrote.sidecar, ← here]
    simp [writePayload, rowsFrom]
  offset := by simp [writePayload, wrote.offset]
  counted := by simp [writePayload, wrote.counted]
  bytes := by simp [writePayload, wrote.bytes]

theorem writePayloads_wrote {s : Session} {chunks : List Chunk} (wrote : Wrote s chunks)
    (more : List Chunk) : Wrote (more.foldl writePayload s) (chunks ++ more) ∧
      (more.foldl writePayload s).id = s.id ∧
      (more.foldl writePayload s).segments = s.segments := by
  induction more generalizing s chunks with
  | nil => simpa using wrote
  | cons chunk rest ih =>
      obtain ⟨written, same, kept⟩ := ih (writePayload_wrote wrote chunk)
      rw [List.append_assoc] at written
      exact ⟨written, same, kept⟩

/-- The packets that leave the open session open. -/
def Packet.Stays : Packet → Prop
  | .shutdown | .strt _ | .endSession => False
  | _ => True

/-- The session has been made of the packets between its start and some later point. -/
structure MadeOf (packets : List Packet) (s : Session) (body : List Packet) (chunks : List Chunk) :
    Prop where
  stretch : ∃ before, before ++ .strt s.id :: body <+: packets
  stays : ∀ packet ∈ body, packet.Stays
  received : receiveAll ∅ body = some (s.segments, chunks)
  wrote : Wrote s chunks

/-- While a session is open, its stretch reaches to the last packet. -/
structure Served (packets : List Packet) (srv : ServerState) : Prop where
  closed : ∀ s ∈ srv.closed, ∃ body chunks, MadeOf packets s body chunks
  opened : ∀ s ∈ srv.current, ∃ before body chunks, packets = before ++ .strt s.id :: body ∧
    MadeOf packets s body chunks
  stopped : srv.running = false → srv.current = none

theorem MadeOf.extend {packets : List Packet} {s : Session} {body : List Packet}
    {chunks : List Chunk} (made : MadeOf packets s body chunks) (packet : Packet) :
    MadeOf (packets ++ [packet]) s body chunks := by
  obtain ⟨before, stretch⟩ := made.stretch
  exact ⟨⟨before, stretch.trans (List.prefix_append _ _)⟩, made.stays, made.received, made.wrote⟩

variable {host : Host}

theorem endSession_eq_some {srv srv' : ServerState} (ended : endSession host srv = some srv') :
    srv'.closed = srv.closed ++ srv.current.toList ∧ srv'.current = none ∧
      srv'.running = srv.running := by
  unfold endSession at ended
  split at ended
  · rename_i none_open
    cases ended
    simp [none_open]
  · rename_i s opened
    split_ifs at ended
    cases ended
    simp [opened]

theorem Served.endSession {packets : List Packet} {srv srv' : ServerState}
    (served : Served packets srv) (ended : endSession host srv = some srv') (packet : Packet) :
    ∀ s ∈ srv'.closed, ∃ body chunks, MadeOf (packets ++ [packet]) s body chunks := by
  intro s mem
  rw [(endSession_eq_some ended).1] at mem
  rcases List.mem_append.mp mem with before | last
  · obtain ⟨body, chunks, made⟩ := served.closed s before
    exact ⟨body, chunks, made.extend packet⟩
  · obtain ⟨before, body, chunks, -, made⟩ := served.opened s (Option.mem_toList.mp last)
    exact ⟨body, chunks, made.extend packet⟩

theorem MadeOf.step {packets before body : List Packet} {s s' : Session} {chunks : List Chunk}
    (made : MadeOf packets s body chunks) (all : packets = before ++ .strt s.id :: body)
    {packet : Packet} (stays : packet.Stays) (stepped : sessionStep s packet = some s') :
    ∃ more, packets ++ [packet] = before ++ .strt s'.id :: (body ++ [packet]) ∧
      MadeOf (packets ++ [packet]) s' (body ++ [packet]) (chunks ++ more) := by
  rw [sessionStep_eq] at stepped
  obtain ⟨⟨table, more⟩, got, rfl⟩ := Option.map_eq_some_iff.mp stepped
  have start : Wrote { s with segments := table } chunks :=
    ⟨made.wrote.bin, made.wrote.sidecar, made.wrote.offset, made.wrote.counted, made.wrote.bytes⟩
  obtain ⟨wrote, same, kept⟩ := writePayloads_wrote start more
  have longer : packets ++ [packet] =
      before ++ .strt (more.foldl writePayload { s with segments := table }).id ::
        (body ++ [packet]) := by
    rw [same, all, List.append_assoc, List.cons_append]
  refine ⟨more, longer, ⟨before, longer ▸ List.prefix_rfl⟩, ?_, ?_, wrote⟩
  · intro other mem
    rcases List.mem_append.mp mem with old | new
    · exact made.stays other old
    · exact List.mem_singleton.mp new ▸ stays
  · rw [receiveAll_append, made.received, kept]
    simp [receiveAll, got]

theorem recv_served {packets : List Packet} {srv srv' : ServerState}
    (served : Served packets srv) {packet : Packet} (turned : recv host srv packet = some srv') :
    Served (packets ++ [packet]) srv' := by
  have closed : ∀ s ∈ srv.closed, ∃ body chunks, MadeOf (packets ++ [packet]) s body chunks := by
    intro s mem
    obtain ⟨body, chunks, made⟩ := served.closed s mem
    exact ⟨body, chunks, made.extend packet⟩
  have goesOn : packet.Stays → (match srv.current with
      | none => some srv
      | some s => (sessionStep s packet).map fun s => { srv with current := some s }) = some srv' →
        srv.running = true → Served (packets ++ [packet]) srv' := by
    intro stays stepped running
    cases current : srv.current with
    | none =>
        rw [current] at stepped
        cases stepped
        exact ⟨closed, by simp [current], by simp [running]⟩
    | some s =>
        rw [current] at stepped
        obtain ⟨s', next, rfl⟩ := Option.map_eq_some_iff.mp stepped
        obtain ⟨before, body, chunks, all, made⟩ := served.opened s (by simp [current])
        obtain ⟨more, longer, grown⟩ := made.step all stays next
        refine ⟨closed, ?_, by simp [running]⟩
        intro other mem
        obtain rfl : s' = other := by simpa using mem
        exact ⟨before, body ++ [packet], chunks ++ more, longer, grown⟩
  unfold recv at turned
  split_ifs at turned with running
  · cases packet with
    | shutdown =>
        obtain ⟨next, ended, rfl⟩ := Option.map_eq_some_iff.mp turned
        have none_open := (endSession_eq_some ended).2.1
        exact ⟨served.endSession ended _, by simp [none_open], fun _ => none_open⟩
    | strt session =>
        obtain ⟨next, ended, turned⟩ := Option.bind_eq_some_iff.mp turned
        obtain ⟨s, started, equal⟩ := Option.bind_eq_some_iff.mp turned
        cases equal
        have runs := (endSession_eq_some ended).2.2.trans running
        refine ⟨served.endSession ended _, ?_, fun stopped => by simp [runs] at stopped⟩
        intro other mem
        obtain rfl : s = other := by simpa using mem
        rw [startSession, Option.ite_none_right_eq_some] at started
        obtain rfl := Option.some.inj started.2
        exact ⟨packets, [], [], rfl, ⟨packets, List.prefix_rfl⟩, by simp, rfl,
          newSession_wrote session⟩
    | endSession =>
        have none_open := (endSession_eq_some turned).2.1
        exact ⟨served.endSession turned _, by simp [none_open], fun _ => none_open⟩
    | dataseq | segment | ignored => exact goesOn trivial turned running
  · cases turned
    have none_open := served.stopped (by simpa using running)
    exact ⟨closed, by simp [none_open], fun _ => none_open⟩

/-- Every session of a run is made of the packets that came while it was open, in order. -/
theorem serve_served {packets : List Packet} {srv : ServerState}
    (ran : packets.foldlM (recv host) listening = some srv) : Served packets srv := by
  induction packets using List.reverseRecOn generalizing srv with
  | nil =>
      cases ran
      exact ⟨by simp [listening], by simp [listening], fun _ => rfl⟩
  | append_singleton packets packet ih =>
      rw [List.foldlM_append] at ran
      obtain ⟨before, served, last⟩ := Option.bind_eq_some_iff.mp ran
      obtain ⟨after, turned, equal⟩ := Option.bind_eq_some_iff.mp last
      obtain rfl : after = srv := Option.some.inj equal
      exact recv_served (ih served) turned

end StreamDataPipeline.UdpStream.Server
