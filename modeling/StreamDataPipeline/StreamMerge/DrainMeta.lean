/- Splitting the metadata sidecar into lines, however its bytes arrive (drain_meta). -/

import StreamDataPipeline.Foundations.Lines
import StreamDataPipeline.Lib.Buffer
import StreamDataPipeline.StreamMerge.Reader

/-!
`handed` and `fed` record what the function does to the outside: the lines that go to the
reader, and the records that go to the state machine. No clip fails to be printed.
-/

set_option autoImplicit false
set_option relaxedAutoImplicit false

namespace StreamDataPipeline.StreamMerge.DrainMeta

open Foundations Foundations.ByteString Lib.Buffer Lib.JsonlCodec Fsm FsmRun Reader

structure Drained where
  metaBuf : DynamicBuffer
  handed : List Bytes
  fed : List SmMetaRecord

def start : Drained := ⟨zeroBuffer, [], []⟩

/-- The data record in a C string, if it is one. -/
def dataRecordOf (c : CJson) (line : Bytes) : Option SmMetaRecord :=
  match smReaderParseLine c line with
  | some rec => if rec.valid ∧ rec.kind = ascii "data" then some rec else none
  | none => none

/-- A line that is not empty goes to the reader, as the C string in front of the NUL that was
put over its newline. -/
def handLine (c : CJson) (d : Drained) (mem : Bytes) (lineLen : Nat) : Drained :=
  if 0 < lineLen then
    { d with
      handed := d.handed ++ [mem.take lineLen]
      fed := d.fed ++ (dataRecordOf c (cstr mem)).toList }
  else d

/-- One pass of the loop over the lines; `none` when there is no newline. -/
def lineStep (c : CJson) (d : Drained) : Option Drained := do
  let mem := d.metaBuf.data.getD []
  let lineLen ← memchr lf mem d.metaBuf.len
  let saved := mem.getD lineLen nul
  let patched := memwrite mem lineLen [nul]
  let heard := handLine c d patched lineLen
  let restored := memwrite patched lineLen [saved]
  let consumed := lineLen + 1
  let rest := d.metaBuf.len - consumed
  let moved := memwrite restored 0 ((restored.drop consumed).take rest)
  some { heard with
    metaBuf := { d.metaBuf with data := some (memwrite moved rest [nul]), len := rest } }

/-- Every pass takes at least the newline from the buffer. -/
def drainLines (c : CJson) : Nat → Drained → Drained
  | 0, d => d
  | passes + 1, d => match lineStep c d with
    | some d' => drainLines c passes d'
    | none => d

/-- What one `read` gives, and the answer to the allocation it may need. -/
abbrev Read := Bytes × Realloc

def appendRead (buf : DynamicBuffer) (read : Read) : Option DynamicBuffer :=
  match dynamicBufferAppendMem buf (some read.1) read.1.length read.2 with
  | (buf, true) => some buf
  | (_, false) => none

/-- `none` is the return value -1. -/
def drainMeta (c : CJson) (d : Drained) (reads : List Read) : Option Drained := do
  let buf ← reads.foldlM appendRead d.metaBuf
  some (drainLines c buf.len { d with metaBuf := buf })

/-- The calls of a session, each with the reads that it makes. -/
def drainCalls (c : CJson) (d : Drained) (calls : List (List Read)) : Option Drained :=
  calls.foldlM (drainMeta c) d

/-- All bytes that are read. -/
def delivered (calls : List (List Read)) : Bytes := calls.flatten.flatMap Prod.fst

/-- The lines that end with a newline, without it. -/
def terminatedLines (s : Bytes) : List Bytes := (s.splitOn lf).dropLast

theorem terminatedLines_of_not_mem {s : Bytes} (absent : lf ∉ s) : terminatedLines s = [] := by
  rw [terminatedLines, List.splitOn_eq_singleton absent]
  rfl

theorem terminatedLines_cons {line : Bytes} (absent : lf ∉ line) (rest : Bytes) :
    terminatedLines (line ++ lf :: rest) = line :: terminatedLines rest := by
  rw [terminatedLines, List.splitOn_append_cons_self_of_not_mem absent,
    List.dropLast_cons_of_ne_nil (List.splitOn_ne_nil lf rest), terminatedLines]

theorem line_in_memory {buf : DynamicBuffer} {line rest : Bytes}
    (split : strchr lf (contents buf) = some (line, rest)) :
    ∃ mem behind, buf.data = some mem ∧ mem = line ++ [lf] ++ (rest ++ behind) ∧
      (contents buf).length = line.length + 1 + rest.length ∧
      memchr lf mem buf.len = some line.length := by
  have whole := (strchr_eq_some split).1
  cases held : buf.data with
  | none => simp [contents, held] at whole
  | some mem =>
      have front : mem.take buf.len = contents buf := by rw [contents, held, Option.getD_some]
      refine ⟨mem, mem.drop buf.len, rfl, ?_, ?_, ?_⟩
      · have joined := List.take_append_drop buf.len mem
        rw [front, whole] at joined
        rw [← List.append_assoc, List.append_assoc line]
        exact joined.symm
      · rw [whole]
        simp
        omega
      · rw [memchr, front, split]
        rfl

theorem lineStep_some (c : CJson) {d : Drained} {line rest : Bytes}
    (well : WellFormed d.metaBuf) (ready : d.metaBuf.failed = false)
    (split : strchr lf (contents d.metaBuf) = some (line, rest)) :
    ∃ d', lineStep c d = some d' ∧ WellFormed d'.metaBuf ∧ d'.metaBuf.failed = false ∧
      contents d'.metaBuf = rest ∧ d'.metaBuf.len < d.metaBuf.len ∧
      d'.handed = d.handed ++ [line].filter (· ≠ []) ∧
      d'.fed = d.fed ++ ([line].filter (· ≠ [])).filterMap fun l => dataRecordOf c (cstr l) := by
  obtain ⟨mem, behind, held, layout, length, found⟩ := line_in_memory split
  obtain ⟨size, room, -⟩ := well.memory mem held
  rw [well.length] at length
  have saved : mem.getD line.length nul = lf := by
    rw [layout]
    simp
  have patched : memwrite mem line.length [nul] = line ++ [nul] ++ (rest ++ behind) := by
    rw [layout]
    exact memwrite_append line [lf] (rest ++ behind) rfl
  have restored : memwrite (memwrite mem line.length [nul]) line.length [lf] = mem := by
    rw [patched, layout]
    exact memwrite_append line [nul] (rest ++ behind) rfl
  have left : d.metaBuf.len - (line.length + 1) = rest.length := by omega
  have moving : (mem.drop (line.length + 1)).take rest.length = rest := by
    rw [layout, List.drop_left' (by simp), List.take_left' rfl]
  have fits : 0 + rest.length ≤ mem.length := by omega
  obtain ⟨kept, same⟩ := terminated ((length_memwrite fits).trans size)
    (show rest.length < d.metaBuf.cap by omega) well.cap_le d.metaBuf.failed
  have front : (memwrite mem 0 rest).take (0 + rest.length) = mem.take 0 ++ rest :=
    take_memwrite (Nat.zero_le mem.length)
  rw [Nat.zero_add, List.take_zero, List.nil_append] at front
  rw [front] at same
  have seen : cstr (memwrite mem line.length [nul]) = cstr line := by
    rw [patched, List.append_assoc]
    exact cstr_append_nul line (rest ++ behind)
  have handed : (memwrite mem line.length [nul]).take line.length = line := by
    rw [patched, List.append_assoc, List.take_left' rfl]
  have stepped : lineStep c d = some
      { handLine c d (memwrite mem line.length [nul]) line.length with
        metaBuf := { d.metaBuf with
          data := some (memwrite (memwrite mem 0 rest) rest.length [nul])
          len := rest.length } } := by
    simp only [lineStep, held, Option.getD_some, found, Option.bind_eq_bind, Option.bind_some,
      saved, restored, left, moving]
  refine ⟨_, stepped, kept, ready, same, ?_, ?_⟩
  · change rest.length < d.metaBuf.len
    omega
  · simp only [handLine, seen, handed]
    cases line with
    | nil => simp
    | cons b line => cases record : dataRecordOf c (cstr (b :: line)) <;> simp [record]

theorem lineStep_none (c : CJson) {d : Drained} (absent : lf ∉ contents d.metaBuf) :
    lineStep c d = none := by
  have nothing : memchr lf (d.metaBuf.data.getD []) d.metaBuf.len = none := by
    rw [memchr, show (d.metaBuf.data.getD []).take d.metaBuf.len = contents d.metaBuf from rfl,
      strchr_eq_none.mpr absent]
    rfl
  simp [lineStep, nothing]

/-- Of the bytes that were read, the finished lines have been handed on and the rest is still in
the buffer. -/
structure Taken (c : CJson) (s : Bytes) (d : Drained) : Prop where
  wellFormed : WellFormed d.metaBuf
  ready : d.metaBuf.failed = false
  lines : ∃ lines : List Bytes, (∀ line ∈ lines, lf ∉ line) ∧
    s = lines.flatMap (· ++ [lf]) ++ contents d.metaBuf ∧ d.handed = lines.filter (· ≠ [])
  fed : d.fed = d.handed.filterMap fun line => dataRecordOf c (cstr line)

theorem start_taken (c : CJson) : Taken c [] start where
  wellFormed := zeroBuffer_wellFormed
  ready := rfl
  lines := ⟨[], by simp, rfl, rfl⟩
  fed := rfl

theorem lineStep_taken {c : CJson} {s : Bytes} {d : Drained} (taken : Taken c s d)
    {line rest : Bytes} (split : strchr lf (contents d.metaBuf) = some (line, rest)) :
    ∃ d', lineStep c d = some d' ∧ Taken c s d' ∧ d'.metaBuf.len < d.metaBuf.len := by
  obtain ⟨d', stepped, well, ready, left, less, handed, fed⟩ :=
    lineStep_some c taken.wellFormed taken.ready split
  obtain ⟨lines, clean, whole, before⟩ := taken.lines
  obtain ⟨content, absent⟩ := strchr_eq_some split
  refine ⟨d', stepped, ⟨well, ready, ⟨lines ++ [line], ?_, ?_, ?_⟩, ?_⟩, less⟩
  · intro l mem
    rcases List.mem_append.mp mem with old | new
    · exact clean l old
    · exact List.mem_singleton.mp new ▸ absent
  · rw [whole, content, left]
    simp
  · rw [handed, before, List.filter_append]
  · rw [fed, handed, taken.fed, List.filterMap_append]

theorem drainLines_taken {c : CJson} {s : Bytes} (passes : Nat) {d : Drained}
    (taken : Taken c s d) (enough : d.metaBuf.len ≤ passes) :
    Taken c s (drainLines c passes d) ∧ lf ∉ contents (drainLines c passes d).metaBuf := by
  induction passes generalizing d with
  | zero =>
      refine ⟨taken, fun mem => ?_⟩
      have bytes := List.length_pos_of_mem mem
      rw [drainLines, taken.wellFormed.length] at bytes
      omega
  | succ passes ih =>
      rw [drainLines]
      cases split : strchr lf (contents d.metaBuf) with
      | none =>
          have absent := strchr_eq_none.mp split
          rw [lineStep_none c absent]
          exact ⟨taken, absent⟩
      | some parts =>
          obtain ⟨d', stepped, kept, less⟩ := lineStep_taken taken split
          rw [stepped]
          exact ih kept (by omega)

theorem appendRead_taken {c : CJson} {s : Bytes} {d : Drained} (taken : Taken c s d)
    {read : Read} {buf : DynamicBuffer} (appended : appendRead d.metaBuf read = some buf) :
    Taken c (s ++ read.1) { d with metaBuf := buf } := by
  have kept := (appendMem_spec taken.wellFormed taken.ready read.1 read.2).1
  obtain ⟨lines, clean, whole, handed⟩ := taken.lines
  rw [appendRead] at appended
  split at appended
  · rename_i next reply
    cases appended
    rw [reply] at kept
    obtain ⟨well, ready, content⟩ := kept rfl
    refine ⟨well, ready, ⟨lines, clean, ?_, handed⟩, taken.fed⟩
    rw [whole, content, List.append_assoc]
  · cases appended

theorem appendRead_isSome {c : CJson} {s : Bytes} {d : Drained} (taken : Taken c s d)
    {read : Read} (granted : read.2.isSome = true) (fits : (s ++ read.1).length < sizeMax) :
    (appendRead d.metaBuf read).isSome = true := by
  have returns := (appendMem_spec taken.wellFormed taken.ready read.1 read.2).2
  have inside : d.metaBuf.len ≤ s.length := by
    obtain ⟨lines, -, whole, -⟩ := taken.lines
    rw [whole, List.length_append, taken.wellFormed.length]
    omega
  rw [List.length_append] at fits
  have returned := returns granted (by omega)
  rw [appendRead]
  generalize dynamicBufferAppendMem d.metaBuf (some read.1) read.1.length read.2 = reply at returned
  obtain ⟨buf, flag⟩ := reply
  cases flag with
  | true => rfl
  | false => cases returned

theorem appendReads_taken {c : CJson} {s : Bytes} {d : Drained} (taken : Taken c s d)
    (reads : List Read) :
    (∀ buf, reads.foldlM appendRead d.metaBuf = some buf →
      Taken c (s ++ reads.flatMap Prod.fst) { d with metaBuf := buf }) ∧
    ((∀ read ∈ reads, read.2.isSome = true) → (s ++ reads.flatMap Prod.fst).length < sizeMax →
      (reads.foldlM appendRead d.metaBuf).isSome = true) := by
  induction reads generalizing s d with
  | nil =>
      refine ⟨fun buf stopped => ?_, fun _ _ => rfl⟩
      cases stopped
      simpa using taken
  | cons read reads ih =>
      rw [List.flatMap_cons, ← List.append_assoc, List.foldlM_cons]
      constructor
      · intro buf ran
        obtain ⟨next, appended, later⟩ := Option.bind_eq_some_iff.mp ran
        exact (ih (appendRead_taken taken appended)).1 buf later
      · intro granted fits
        have room : (s ++ read.1).length < sizeMax := by
          rw [List.length_append] at fits
          omega
        obtain ⟨next, appended⟩ := Option.isSome_iff_exists.mp
          (appendRead_isSome taken (granted read List.mem_cons_self) room)
        rw [appended]
        exact (ih (appendRead_taken taken appended)).2
          (fun later mem => granted later (List.mem_cons_of_mem read mem)) fits

/-- A call that returns has handed on every finished line. -/
theorem drainMeta_taken {c : CJson} {s : Bytes} {d : Drained} (taken : Taken c s d)
    (reads : List Read) :
    (∀ d', drainMeta c d reads = some d' →
      Taken c (s ++ reads.flatMap Prod.fst) d' ∧ lf ∉ contents d'.metaBuf) ∧
    ((∀ read ∈ reads, read.2.isSome = true) → (s ++ reads.flatMap Prod.fst).length < sizeMax →
      (drainMeta c d reads).isSome = true) := by
  obtain ⟨appended, returns⟩ := appendReads_taken taken reads
  constructor
  · intro d' ran
    obtain ⟨buf, filled, rfl⟩ : ∃ buf, reads.foldlM appendRead d.metaBuf = some buf ∧
        drainLines c buf.len { d with metaBuf := buf } = d' := by
      simpa [drainMeta, Option.bind_eq_some_iff] using ran
    exact drainLines_taken buf.len (appended buf filled) (le_refl _)
  · intro granted fits
    obtain ⟨buf, filled⟩ := Option.isSome_iff_exists.mp (returns granted fits)
    simp [drainMeta, filled]

theorem drainCalls_taken {c : CJson} {s : Bytes} {d : Drained} (taken : Taken c s d)
    (clean : lf ∉ contents d.metaBuf) (calls : List (List Read)) :
    (∀ d', drainCalls c d calls = some d' →
      Taken c (s ++ delivered calls) d' ∧ lf ∉ contents d'.metaBuf) ∧
    ((∀ read ∈ calls.flatten, read.2.isSome = true) → (s ++ delivered calls).length < sizeMax →
      (drainCalls c d calls).isSome = true) := by
  induction calls generalizing s d with
  | nil =>
      refine ⟨fun d' stopped => ?_, fun _ _ => rfl⟩
      cases stopped
      exact ⟨by simpa [delivered] using taken, clean⟩
  | cons reads calls ih =>
      have split : s ++ delivered (reads :: calls) =
          s ++ reads.flatMap Prod.fst ++ delivered calls := by
        simp [delivered]
      obtain ⟨drained, returns⟩ := drainMeta_taken taken reads
      rw [split, drainCalls, List.foldlM_cons]
      constructor
      · intro d' ran
        obtain ⟨next, called, later⟩ := Option.bind_eq_some_iff.mp ran
        obtain ⟨nextTaken, nextClean⟩ := drained next called
        exact (ih nextTaken nextClean).1 d' later
      · intro granted fits
        have room : (s ++ reads.flatMap Prod.fst).length < sizeMax := by
          rw [List.length_append] at fits
          omega
        obtain ⟨next, called⟩ := Option.isSome_iff_exists.mp
          (returns (fun read mem => granted read (by simp [mem])) room)
        obtain ⟨nextTaken, nextClean⟩ := drained next called
        rw [called]
        exact (ih nextTaken nextClean).2
          (fun read mem => granted read (by
            rw [List.flatten_cons]
            exact List.mem_append_right reads mem)) fits

theorem terminatedLines_lines {lines : List Bytes} (clean : ∀ line ∈ lines, lf ∉ line)
    {rest : Bytes} (absent : lf ∉ rest) :
    terminatedLines (lines.flatMap (· ++ [lf]) ++ rest) = lines := by
  induction lines with
  | nil => simpa using terminatedLines_of_not_mem absent
  | cons line lines ih =>
      have first := clean line List.mem_cons_self
      have later := ih fun l mem => clean l (List.mem_cons_of_mem line mem)
      have layout : (line :: lines).flatMap (· ++ [lf]) ++ rest =
          line ++ lf :: (lines.flatMap (· ++ [lf]) ++ rest) := by simp
      rw [layout, terminatedLines_cons first, later]

theorem lines_closed (lines : List Bytes) : Lines.Closed lf (lines.flatMap (· ++ [lf])) := by
  induction lines with
  | nil => exact .inl rfl
  | cons line lines ih =>
      rw [List.flatMap_cons]
      exact Lines.closed_append (Lines.closed_line line) ih

theorem dataRecordOf_range {c : CJson} {line : Bytes} {rec : SmMetaRecord}
    (read : dataRecordOf c line = some rec) : rec.valid = true ∧ InReaderRange rec := by
  rw [dataRecordOf] at read
  split at read
  · rename_i parsed
    split_ifs at read
    cases read
    exact smReaderParseLine_range parsed
  · cases read

/-- What has become of the bytes of a sidecar; the byte fields of the records that are fed are
safe integers. -/
structure ReadWhole (c : CJson) (s : Bytes) (d : Drained) : Prop where
  handed : d.handed = (terminatedLines s).filter (· ≠ [])
  fed : d.fed = d.handed.filterMap fun line => dataRecordOf c (cstr line)
  range : ∀ rec ∈ d.fed, rec.valid = true ∧ InReaderRange rec
  left : contents d.metaBuf = Lines.openTail lf s

theorem Taken.readWhole {c : CJson} {s : Bytes} {d : Drained} (taken : Taken c s d)
    (clean : lf ∉ contents d.metaBuf) : ReadWhole c s d := by
  obtain ⟨lines, finished, whole, handed⟩ := taken.lines
  refine ⟨?_, taken.fed, fun rec mem => ?_, ?_⟩
  · rw [handed, whole, terminatedLines_lines finished clean]
  · rw [taken.fed] at mem
    obtain ⟨line, -, read⟩ := List.mem_filterMap.mp mem
    exact dataRecordOf_range read
  · rw [whole, Lines.openTail_append (lines_closed lines), Lines.openTail_eq_self clean]

/-- However the bytes of a sidecar are spread over reads and calls, the same lines are handed
on and the same records are fed; the calls return unless memory is refused or a length leaves
the range of its type. -/
theorem sidecar_independent_of_reads (c : CJson) (calls : List (List Read)) :
    (∀ d, drainCalls c start calls = some d → ReadWhole c (delivered calls) d ∧
      ∀ others d', delivered others = delivered calls → drainCalls c start others = some d' →
        d'.handed = d.handed ∧ d'.fed = d.fed) ∧
    ((∀ read ∈ calls.flatten, read.2.isSome = true) → (delivered calls).length < sizeMax →
      (drainCalls c start calls).isSome = true) := by
  have fresh : lf ∉ contents start.metaBuf := by simp [start, zeroBuffer, contents]
  have whole : ∀ calls d, drainCalls c start calls = some d → ReadWhole c (delivered calls) d := by
    intro calls d ran
    obtain ⟨taken, clean⟩ := (drainCalls_taken (start_taken c) fresh calls).1 d ran
    exact taken.readWhole clean
  refine ⟨fun d ran => ⟨whole calls d ran, ?_⟩, (drainCalls_taken (start_taken c) fresh calls).2⟩
  intro others d' same other
  have here := whole calls d ran
  have there := whole others d' other
  have handed : d'.handed = d.handed := by rw [there.handed, here.handed, same]
  exact ⟨handed, by rw [there.fed, here.fed, handed]⟩

end StreamDataPipeline.StreamMerge.DrainMeta
