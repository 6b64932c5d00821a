/- A scan of the database in which allocations fail (load_latest_rows, parse_db_row). -/

import StreamDataPipeline.ClipStore.Compaction

/-!
For every line of the file, the answers to the allocations that its turn of the loop may
make. `parse_db_row` returns -1 for a malformed line and for an allocation that fails.
-/

set_option autoImplicit false
set_option relaxedAutoImplicit false

namespace StreamDataPipeline.ClipStore.AllocationFailures

open Foundations Foundations.ByteString Foundations.Decimal Foundations.Lines Foundations.LastWrite
  Foundations.LinearProbing Lib.Base64
open Format BucketIndex Query Compaction

/-- `false` is an allocation that fails: the one of `getline`, the two buffers of
`parse_db_row` and the successive reallocations of the second one, the new buckets of
`row_index_grow`, and the copies of `replace_row`. -/
structure LineAllocs where
  getline : Bool
  comp : Bool
  uncomp : Bool
  doubled : Nat → Bool
  buckets : Bool
  copies : Bool

def granted : LineAllocs := ⟨true, true, true, fun _ => true, true, true⟩

/-- The retries from number `k` on. -/
def uncompressLoopUnder (z : Zlib) (comp : Bytes) (doubled : Nat → Bool) :
    Nat → Nat → Nat → Option (Nat × Bytes)
  | 0, _, _ => none
  | fuel + 1, cap, k => match z.uncompress cap comp with
    | .ok out => some (cap, out)
    | .bufError =>
        if doubled k then uncompressLoopUnder z comp doubled fuel (cap * 2) (k + 1) else none
    | .dataError => none

/-- The branch of `parse_db_row` for a compressed value. -/
def decompressUnder (z : Zlib) (b64 : Bytes) (allocs : LineAllocs) : Option Bytes :=
  if !allocs.comp then none
  else do
    let comp ← base64Decode 58 b64 (b64.length + 1)
    if !allocs.uncomp then none
    else do
      let (_, out) ← uncompressLoopUnder z comp allocs.doubled (uncompressFuel z comp)
        (comp.length * 4 + 1024) 0
      pure out

def parseDbRowUnder (z : Zlib) (line : Bytes) (allocs : LineAllocs) : Option Row := do
  let (key, rest) ← strchr tab line
  let (value, last) ← strchr tab rest
  let expireAt ← strtolWhole last
  match value with
  | 90 :: 58 :: b64 => do
      let out ← decompressUnder z b64 allocs
      pure ⟨key, cstr out, expireAt⟩
  | _ => pure ⟨key, value, expireAt⟩

/-- New buckets are allocated only where the capacity changes. -/
def rowIndexPutUnder (index : RowIndex) (row : Row) (allocs : LineAllocs) : Option RowIndex := do
  let grown ← rowIndexGrow hashKey index (index.len + 1)
  if grown.cap ≠ index.cap ∧ allocs.buckets = false then none
  else if allocs.copies = false then none
  else rowIndexPut hashKey index row

/-- The scan from line `n` on; `none` is the return value -1. A `getline` that cannot
allocate sets the error flag of the stream. -/
def loadLinesUnder (z : Zlib) (allocs : Nat → LineAllocs) :
    List Bytes → Nat → RowIndex → Option RowIndex
  | [], n, index => if (allocs n).getline then some index else none
  | line :: rest, n, index =>
      if !(allocs n).getline then none
      else match parseDbRowUnder z (cutLine line) (allocs n) with
        | none => loadLinesUnder z allocs rest (n + 1) index
        | some row => do
            let index ← rowIndexPutUnder index row (allocs n)
            loadLinesUnder z allocs rest (n + 1) index

def loadLatestRowsUnder (z : Zlib) (file : Bytes) (allocs : Nat → LineAllocs) : Option RowIndex :=
  loadLinesUnder z allocs (pieces lf file) 0 rowIndexEmpty

/-- The text behind the mark of a compressed value. -/
def zValue (line : Bytes) : Option Bytes := do
  let (_, rest) ← strchr tab line
  let (value, _) ← strchr tab rest
  match value with
  | 90 :: 58 :: b64 => some b64
  | _ => none

/-- An allocation fails that the decompression of the value needs. -/
def StarvedValue (z : Zlib) (b64 : Bytes) (allocs : LineAllocs) : Prop :=
  allocs.comp = false ∨ allocs.uncomp = false ∨
    ∃ comp ∈ base64Decode 58 b64 (b64.length + 1), ∃ out ∈ z.inflate comp,
      ∃ k < out.length, (comp.length * 4 + 1024) * 2 ^ k < out.length ∧ allocs.doubled k = false

instance (z : Zlib) (b64 : Bytes) (allocs : LineAllocs) : Decidable (StarvedValue z b64 allocs) :=
  inferInstanceAs (Decidable (_ ∨ _ ∨ _))

def Starved (z : Zlib) (line : Bytes) (allocs : LineAllocs) : Prop :=
  ∃ b64 ∈ zValue line, StarvedValue z b64 allocs

instance (z : Zlib) (line : Bytes) (allocs : LineAllocs) : Decidable (Starved z line allocs) :=
  inferInstanceAs (Decidable (∃ b64 ∈ zValue line, _))

/-- The rows of the lines on which `parse_db_row` gets the memory it needs. -/
def fedRows (z : Zlib) (allocs : Nat → LineAllocs) : List Bytes → Nat → List Row
  | [], _ => []
  | line :: rest, n =>
      (if Starved z (cutLine line) (allocs n) then [] else (parseDbRow z (cutLine line)).toList) ++
        fedRows z allocs rest (n + 1)

theorem uncompressLoopUnder_granted {z : Zlib} {comp : Bytes} {doubled : Nat → Bool}
    (fuel cap k : Nat)
    (needed : ∀ out ∈ z.inflate comp, ∀ j, cap * 2 ^ j < out.length → doubled (k + j) = true) :
    uncompressLoopUnder z comp doubled fuel cap k = uncompressLoop z comp fuel cap := by
  induction fuel generalizing cap k with
  | zero => rfl
  | succ fuel ih =>
      rw [uncompressLoopUnder, uncompressLoop]
      cases content : z.inflate comp with
      | none => simp [Zlib.uncompress, content]
      | some out =>
          simp only [Zlib.uncompress, content]
          by_cases fits : out.length ≤ cap
          · simp [if_pos fits]
          · have now := needed out content 0 (by simpa using fits)
            rw [if_neg fits]
            simp only [Nat.add_zero] at now
            rw [if_pos now]
            apply ih
            intro out' content' j short
            rw [doubled_size] at short
            have later := needed out' content' (j + 1) short
            rwa [Nat.add_assoc, Nat.add_comm 1 j]

theorem uncompressLoopUnder_starved {z : Zlib} {comp out : Bytes} {doubled : Nat → Bool}
    (content : z.inflate comp = some out) (fuel cap k j : Nat) (short : cap * 2 ^ j < out.length)
    (refused : doubled (k + j) = false) :
    uncompressLoopUnder z comp doubled fuel cap k = none := by
  induction fuel generalizing cap k j with
  | zero => rfl
  | succ fuel ih =>
      have large : cap < out.length :=
        Nat.lt_of_le_of_lt (Nat.le_mul_of_pos_right cap (Nat.two_pow_pos j)) short
      rw [uncompressLoopUnder]
      simp only [Zlib.uncompress, content, if_neg (Nat.not_le_of_lt large)]
      split_ifs with now
      · cases j with
        | zero => exact absurd now (by simpa using refused)
        | succ j =>
            apply ih (cap * 2) (k + 1) j
            · rwa [doubled_size]
            · rwa [Nat.add_assoc, Nat.add_comm 1 j]
      · rfl

theorem decompressUnder_starved {z : Zlib} {b64 : Bytes} {allocs : LineAllocs}
    (starved : StarvedValue z b64 allocs) : decompressUnder z b64 allocs = none := by
  unfold decompressUnder
  rcases starved with refused | refused | ⟨comp, decoded, out, content, k, -, short, refused⟩
  · simp [refused]
  · simp [refused]
  · have stopped := uncompressLoopUnder_starved content (uncompressFuel z comp)
      (comp.length * 4 + 1024) 0 k short (by simpa using refused)
    simp [Option.mem_def.mp decoded, stopped]

theorem decompressUnder_fed {z : Zlib} {b64 : Bytes} {allocs : LineAllocs}
    (fed : ¬ StarvedValue z b64 allocs) :
    decompressUnder z b64 allocs =
      (base64Decode 58 b64 (b64.length + 1)).bind fun comp =>
        (uncompressValue z comp).map Prod.snd := by
  simp only [StarvedValue, not_or, Bool.not_eq_false] at fed
  obtain ⟨compOk, uncompOk, needed⟩ := fed
  unfold decompressUnder
  cases decoded : base64Decode 58 b64 (b64.length + 1) with
  | none => simp [compOk]
  | some comp =>
      have doublings : ∀ out ∈ z.inflate comp, ∀ j,
          (comp.length * 4 + 1024) * 2 ^ j < out.length → allocs.doubled (0 + j) = true := by
        intro out content j short
        by_contra refused
        have small : j < (comp.length * 4 + 1024) * 2 ^ j :=
          Nat.lt_of_lt_of_le Nat.lt_two_pow_self (Nat.le_mul_of_pos_left _ (by omega))
        exact needed ⟨comp, decoded, out, content, j, by omega, short, by simpa using refused⟩
      have granted := uncompressLoopUnder_granted (uncompressFuel z comp) _ 0 doublings
      simp only [compOk, uncompOk, Bool.not_true, Bool.false_eq_true, if_false,
        Option.bind_eq_bind, Option.bind_some, granted]
      cases found : uncompressValue z comp <;> simp_all [uncompressValue]

theorem starved_iff {z : Zlib} {line key rest b64 last : Bytes} {allocs : LineAllocs}
    (first : strchr tab line = some (key, rest))
    (second : strchr tab rest = some (90 :: 58 :: b64, last)) :
    Starved z line allocs ↔ StarvedValue z b64 allocs := by
  simp [Starved, zValue, first, second]

theorem parseDbRowUnder_starved {z : Zlib} {line : Bytes} {allocs : LineAllocs}
    (starved : Starved z line allocs) : parseDbRowUnder z line allocs = none := by
  obtain ⟨b64, marked, value⟩ := starved
  obtain ⟨⟨key, rest⟩, first, marked⟩ := Option.bind_eq_some_iff.mp (Option.mem_def.mp marked)
  obtain ⟨⟨text, last⟩, second, marked⟩ := Option.bind_eq_some_iff.mp marked
  dsimp only at marked
  split at marked
  · cases marked
    simp only [parseDbRowUnder, first, second, Option.bind_eq_bind, Option.bind_some,
      decompressUnder_starved value]
    cases strtolWhole last <;> rfl
  · cases marked

theorem parseDbRowUnder_fed {z : Zlib} {line : Bytes} {allocs : LineAllocs}
    (fed : ¬ Starved z line allocs) : parseDbRowUnder z line allocs = parseDbRow z line := by
  unfold parseDbRowUnder parseDbRow
  cases first : strchr tab line with
  | none => rfl
  | some parts =>
      cases second : strchr tab parts.2 with
      | none => simp [second]
      | some fields =>
          simp only [Option.bind_eq_bind, Option.bind_some, second]
          cases strtolWhole fields.2 with
          | none => rfl
          | some expireAt =>
              obtain ⟨value, last⟩ := fields
              simp only [Option.bind_some]
              split
              · rename_i b64
                have supplied : ¬ StarvedValue z b64 allocs := fun starved =>
                  fed ((starved_iff first second).mpr starved)
                rw [decompressUnder_fed supplied, Option.bind_assoc]
                congr 1
                funext comp
                cases uncompressValue z comp <;> rfl
              · grind

theorem rowIndexPutUnder_some {index next : RowIndex} {row : Row} {allocs : LineAllocs}
    (put : rowIndexPutUnder index row allocs = some next) :
    rowIndexPut hashKey index row = some next := by
  obtain ⟨grown, -, put⟩ := Option.bind_eq_some_iff.mp put
  split_ifs at put
  exact put

theorem rowIndexPutUnder_granted (index : RowIndex) (row : Row) :
    rowIndexPutUnder index row granted = rowIndexPut hashKey index row := by
  unfold rowIndexPutUnder rowIndexPut
  cases rowIndexGrow hashKey index (index.len + 1) with
  | none => rfl
  | some grown => simp [granted]

/-- The index holds the rows of the lines that were fed. -/
theorem loadLinesUnder_holds {z : Zlib} {allocs : Nat → LineAllocs} (lines : List Bytes) {n : Nat}
    {index next : RowIndex} {log : List Row} (holds : Holds hashKey index log)
    (loaded : loadLinesUnder z allocs lines n index = some next) :
    Holds hashKey next (log ++ fedRows z allocs lines n) := by
  induction lines generalizing n index log with
  | nil =>
      rw [loadLinesUnder] at loaded
      split_ifs at loaded
      cases loaded
      simpa [fedRows] using holds
  | cons line rest ih =>
      rw [loadLinesUnder] at loaded
      split_ifs at loaded
      rw [fedRows]
      by_cases starved : Starved z (cutLine line) (allocs n)
      · rw [parseDbRowUnder_starved starved] at loaded
        rw [if_pos starved]
        exact ih holds loaded
      · rw [parseDbRowUnder_fed starved] at loaded
        rw [if_neg starved]
        cases parsed : parseDbRow z (cutLine line) with
        | none =>
            rw [parsed] at loaded
            exact ih holds loaded
        | some row =>
            rw [parsed] at loaded
            obtain ⟨put, stepped, loaded⟩ := Option.bind_eq_some_iff.mp loaded
            obtain ⟨same, plain, putHolds⟩ := rowIndexPut_spec holds row
            rw [rowIndexPutUnder_some stepped] at plain
            cases plain
            rw [Option.toList_some, ← List.append_assoc]
            exact ih putHolds loaded

theorem loadLinesUnder_granted (z : Zlib) (lines : List Bytes) (n : Nat) (index : RowIndex) :
    loadLinesUnder z (fun _ => granted) lines n index = lines.foldlM (loadLine z) index := by
  induction lines generalizing n index with
  | nil => rfl
  | cons line rest ih =>
      have fed : ¬ Starved z (cutLine line) granted := by
        rintro ⟨b64, -, starved⟩
        simp [StarvedValue, granted] at starved
      rw [loadLinesUnder, if_neg (by simp [granted]), parseDbRowUnder_fed fed, List.foldlM_cons,
        loadLine]
      cases parseDbRow z (cutLine line) with
      | none => exact ih (n + 1) index
      | some row =>
          dsimp only
          rw [rowIndexPutUnder_granted]
          congr 1
          funext next
          exact ih (n + 1) next

/-- The latest row of every key is on a line that is fed, or equal to the latest row of the key
on the lines that are. -/
def LatestFed (z : Zlib) (file : Bytes) (allocs : Nat → LineAllocs) : Prop :=
  ∀ key, lastWrite Row.key (fedRows z allocs (pieces lf file) 0) key = latestRow z file key

/-- When a scan under memory pressure returns 0, its index holds the latest row of every key
exactly when no line was starved that decides a latest row; then a compaction from that index
loses no live row and revives no other one. -/
theorem load_under_iff (z : Zlib) (file : Bytes) (allocs : Nat → LineAllocs) {index : RowIndex}
    (loaded : loadLatestRowsUnder z file allocs = some index) :
    ((∀ key, rowIndexGet hashKey index key = loadLatestRow z file key) ↔
        LatestFed z file allocs) ∧
      (LatestFed z file allocs → ∀ now out,
        index.buckets.foldlM (appendLiveRow z now) [] = some out →
          ∀ key, latestRow z out key =
            (latestRow z file key).filter fun row => rowIsLive row now) := by
  have holds := loadLinesUnder_holds (pieces lf file) holds_empty loaded
  rw [List.nil_append] at holds
  constructor
  · refine forall_congr' fun key => ?_
    rw [rowIndexGet_spec holds, loadLatestRow_eq, Option.some.injEq]
  · intro latest now out run key
    have whole : Holds hashKey index (dbRows z file) :=
      ⟨holds.wellFormed, fun e => (holds.latest e).trans (by rw [latest e.key, latestRow])⟩
    exact (rewritten_of_holds whole run).latestRow key

/-- Two rows of one key, the second with another value. -/
def overwrittenDb : Bytes := ascii "k\tZ:eJwBAQD+/3YAdwB3\t0\nk\tZ:eJwBAQD+/3cAeAB4\t0\n"

def refuseLine (line : Nat) : Nat → LineAllocs := fun n => { granted with comp := n ≠ line }

/-- A row that is overwritten anyway may starve. -/
theorem load_under_overwritten :
    ∃ index, loadLatestRowsUnder storedZlib overwrittenDb (refuseLine 0) = some index ∧
      ∀ key, rowIndexGet hashKey index key = loadLatestRow storedZlib overwrittenDb key := by
  have ran : (loadLatestRowsUnder storedZlib overwrittenDb (refuseLine 0)).isSome = true := by
    decide +kernel
  have fed : fedRows storedZlib (refuseLine 0) (pieces lf overwrittenDb) 0 =
      [⟨ascii "k", ascii "w", 0⟩] := by decide +kernel
  have rows : dbRows storedZlib overwrittenDb =
      [⟨ascii "k", ascii "v", 0⟩] ++ [⟨ascii "k", ascii "w", 0⟩] := by decide +kernel
  obtain ⟨index, loaded⟩ := Option.isSome_iff_exists.mp ran
  refine ⟨index, loaded, (load_under_iff storedZlib overwrittenDb (refuseLine 0) loaded).1.mpr ?_⟩
  intro key
  rw [fed, latestRow, rows, lastWrite_concat, lastWrite_singleton, lastWrite_singleton]
  split_ifs <;> rfl

/-- The latest row starves: the scan returns 0 with the row that it had overwritten. -/
theorem load_under_revives :
    ∃ index, loadLatestRowsUnder storedZlib overwrittenDb (refuseLine 1) = some index ∧
      rowIndexGet hashKey index (ascii "k") = some (some ⟨ascii "k", ascii "v", 0⟩) ∧
      loadLatestRow storedZlib overwrittenDb (ascii "k") =
        some (some ⟨ascii "k", ascii "w", 0⟩) := by
  refine ⟨(loadLatestRowsUnder storedZlib overwrittenDb (refuseLine 1)).getD rowIndexEmpty, ?_, ?_,
    ?_⟩ <;> decide +kernel

end StreamDataPipeline.ClipStore.AllocationFailures
