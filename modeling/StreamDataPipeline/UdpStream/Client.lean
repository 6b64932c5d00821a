/- The client that sends a file in chunks, or its segments in fragments. -/

import StreamDataPipeline.UdpStream.Datagram

/-!
A run of the client is the list of the datagrams that it sends; `none` is one that exits with an
error before it has sent the last one.
-/

set_option autoImplicit false
set_option relaxedAutoImplicit false

namespace StreamDataPipeline.UdpStream.Client

open Foundations.ByteString Foundations.Decimal Datagram

/-- `segmentMs` is `int(args.segment_time * 1000)`. -/
structure ClientArgs where
  session : Bytes
  gap : Bool
  chunkSize : Nat
  maxChunks : Int
  tsStepMs : Int
  segmentMs : Int
  wireFragmentSize : Int

/-- Every read takes at least a byte of the file, so its length bounds the reads. -/
def streamChunks (chunkSize : Nat) (maxChunks : Int) : Nat → Nat → Bytes → List (Nat × Bytes)
  | 0, _, _ => []
  | reads + 1, sent, rest =>
      if maxChunks ≤ 0 ∨ sent < maxChunks then
        let chunk := rest.take chunkSize
        if chunk = [] then []
        else (sent + 1, chunk) ::
          streamChunks chunkSize maxChunks reads (sent + 1) (rest.drop chunkSize)
      else []

/-- The sequence of a chunk or segment; with a gap, it skips three behind the first one. -/
def seqOf (gap : Bool) (index : Nat) : Nat := if gap ∧ 1 < index then index + 3 else index

def sentChunks (args : ClientArgs) (file : Bytes) : List (Nat × Bytes) :=
  streamChunks args.chunkSize args.maxChunks file.length 0 file

def chunkTsMs (args : ClientArgs) (index : Nat) : Int := ((index : Int) - 1) * args.tsStepMs

def chunkLine (args : ClientArgs) (chunk : Nat × Bytes) : Bytes :=
  dataseqLine (seqOf args.gap chunk.1) (chunkTsMs args chunk.1) chunk.2

/-- What a datagram can hold. -/
def maxDatagram : Nat := 65507

/-- `sendto` raises where the line does not fit a datagram. -/
def sendLine (line : Bytes) : Option Bytes := if line.length ≤ maxDatagram then some line else none

def sendStream (args : ClientArgs) (file : Bytes) : Option (List Bytes) :=
  let chunks := sentChunks args file
  if chunks = [] then none
  else (strtLine args.session :: chunks.map (chunkLine args) ++ [ascii "END"]).mapM sendLine

def fragments (size : Nat) (data : Bytes) : List Bytes :=
  (List.range ((data.length + size - 1) / size)).map fun i => (data.drop (i * size)).take size

/-- `none` is SystemExit. -/
def sendSegment (args : ClientArgs) (seq tsMs : Int) (data : Bytes) : Option (List Bytes) :=
  if data = [] ∨ args.wireFragmentSize ≤ 0 then none
  else
    let parts := fragments args.wireFragmentSize.toNat data
    some (parts.mapIdx fun i part => segmentLine seq tsMs i parts.length part)

def stepMs (args : ClientArgs) : Int := if 0 < args.tsStepMs then args.tsStepMs else args.segmentMs

def sendSegments (args : ClientArgs) : Nat → List Bytes → Option (List Bytes)
  | _, [] => some []
  | sent, data :: rest => do
      let lines ← sendSegment args (seqOf args.gap (sent + 1)) (sent * stepMs args) data
      let later ← sendSegments args (sent + 1) rest
      some (lines ++ later)

def sendSegmentStream (args : ClientArgs) (segments : List Bytes) : Option (List Bytes) :=
  if segments = [] then none
  else do
    let lines ← sendSegments args 0 segments
    (strtLine args.session :: lines ++ [ascii "END"]).mapM sendLine

theorem mapM_sendLine {lines sent : List Bytes} (sends : lines.mapM sendLine = some sent) :
    lines = sent ∧ ∀ line ∈ sent, line.length ≤ maxDatagram := by
  induction lines generalizing sent with
  | nil =>
      cases sends
      exact ⟨rfl, by simp⟩
  | cons line lines ih =>
      rw [List.mapM_cons] at sends
      obtain ⟨first, fits, rest⟩ := Option.bind_eq_some_iff.mp sends
      obtain ⟨later, all, equal⟩ := Option.bind_eq_some_iff.mp rest
      obtain ⟨rfl, short⟩ := ih all
      rw [sendLine, Option.ite_none_right_eq_some] at fits
      obtain ⟨fits, same⟩ := fits
      cases same
      cases equal
      exact ⟨rfl, List.forall_mem_cons.mpr ⟨fits, short⟩⟩

theorem seqOf_rises (gap : Bool) {i j : Nat} (less : i < j) : seqOf gap i < seqOf gap j := by
  unfold seqOf
  cases gap with
  | false => simpa using less
  | true =>
      simp only [true_and]
      split_ifs <;> omega

theorem seqOf_le (gap : Bool) (index : Nat) : seqOf gap index ≤ index + 3 := by
  unfold seqOf
  split_ifs <;> omega

section Chunks

variable {chunkSize : Nat} {maxChunks : Int}

theorem streamChunks_numbers (reads sent : Nat) (rest : Bytes) :
    (streamChunks chunkSize maxChunks reads sent rest).Pairwise (fun x y => x.1 < y.1) ∧
      ∀ chunk ∈ streamChunks chunkSize maxChunks reads sent rest,
        sent < chunk.1 ∧ chunk.1 ≤ sent + rest.length ∧ chunk.2 ≠ [] := by
  induction reads generalizing sent rest with
  | zero => simp [streamChunks]
  | succ reads ih =>
      rw [streamChunks]
      dsimp only
      split_ifs with goesOn empty
      · simp
      · obtain ⟨rises, bounds⟩ := ih (sent + 1) (rest.drop chunkSize)
        have shorter : (rest.drop chunkSize).length + 1 ≤ rest.length := by
          have taken := List.length_pos_iff.mpr empty
          rw [List.length_take] at taken
          rw [List.length_drop]
          omega
        refine ⟨List.pairwise_cons.mpr ⟨fun chunk mem => ?_, rises⟩, ?_⟩
        · have later := (bounds chunk mem).1
          exact Nat.lt_of_succ_le later
        · rw [List.forall_mem_cons]
          refine ⟨⟨Nat.lt_succ_self sent, by omega, empty⟩, fun chunk mem => ?_⟩
          obtain ⟨above, below, nonempty⟩ := bounds chunk mem
          exact ⟨by omega, by omega, nonempty⟩
      · simp

theorem streamChunks_whole (positive : 0 < chunkSize) (unlimited : maxChunks ≤ 0) {reads : Nat}
    (sent : Nat) {rest : Bytes} (enough : rest.length ≤ reads) :
    (streamChunks chunkSize maxChunks reads sent rest).flatMap Prod.snd = rest := by
  induction reads generalizing sent rest with
  | zero =>
      rw [List.length_eq_zero_iff.mp (Nat.le_zero.mp enough)]
      rfl
  | succ reads ih =>
      rw [streamChunks, if_pos (.inl unlimited)]
      dsimp only
      split_ifs with empty
      · rcases List.take_eq_nil_iff.mp empty with zero | none
        · omega
        · rw [none]
          rfl
      · have shorter : (rest.drop chunkSize).length ≤ reads := by
          have taken := List.length_pos_iff.mpr empty
          rw [List.length_take] at taken
          rw [List.length_drop]
          omega
        rw [List.flatMap_cons, ih (sent + 1) shorter, List.take_append_drop]

end Chunks

section Fragments

variable {size : Nat}

private theorem fragments_take (data : Bytes) (n : Nat) :
    ((List.range n).map fun i => (data.drop (i * size)).take size).flatten =
      data.take (n * size) := by
  induction n with
  | zero => simp
  | succ n ih =>
      rw [List.range_succ, List.map_append, List.flatten_append, ih, Nat.succ_mul,
        List.take_add]
      simp

theorem fragments_flatten (positive : 0 < size) (data : Bytes) :
    (fragments size data).flatten = data := by
  rw [fragments, fragments_take]
  apply List.take_of_length_le
  have quotient := Nat.div_add_mod (data.length + size - 1) size
  have remainder := Nat.mod_lt (data.length + size - 1) positive
  rw [Nat.mul_comm] at quotient
  omega

theorem fragments_nonempty (positive : 0 < size) (data : Bytes) :
    ∀ part ∈ fragments size data, part ≠ [] := by
  intro part mem
  obtain ⟨i, inside, rfl⟩ := List.mem_map.mp mem
  have less : i * size < data.length := by
    have bound := Nat.mul_le_of_le_div size _ _ (Nat.succ_le_of_lt (List.mem_range.mp inside))
    rw [Nat.succ_mul] at bound
    omega
  rw [ne_eq, List.take_eq_nil_iff, not_or, List.drop_eq_nil_iff]
  omega

theorem fragments_ne_nil (positive : 0 < size) {data : Bytes} (nonempty : data ≠ []) :
    fragments size data ≠ [] := by
  intro none
  have whole := fragments_flatten positive data
  rw [none] at whole
  exact nonempty whole.symm

theorem length_fragments_le (positive : 0 < size) (data : Bytes) :
    (fragments size data).length ≤ data.length := by
  rw [fragments, List.length_map, List.length_range]
  rcases Nat.eq_zero_or_pos data.length with zero | some
  · rw [zero, Nat.zero_add]
    exact le_of_eq (Nat.div_eq_of_lt (by omega))
  · apply Nat.div_le_of_le_mul
    have grows : data.length + size ≤ size * data.length + 1 := by nlinarith
    omega

end Fragments

end StreamDataPipeline.UdpStream.Client
