/- The growable byte buffer of the shared library (lib/dynamic_buffer.c). -/

import Mathlib.Data.List.Basic
import StreamDataPipeline.Foundations.Word
import StreamDataPipeline.Foundations.ByteString

/-!
The allocated memory is a list of bytes. What an allocation leaves in fresh memory, and
whether it succeeds, is an answer from outside.
-/

set_option autoImplicit false
set_option relaxedAutoImplicit false

namespace StreamDataPipeline.Lib.Buffer

open Foundations.Word Foundations.ByteString

def sizeMax : Nat := 2 ^ 64 - 1

/-- `data` is `none` for the null pointer. -/
structure DynamicBuffer where
  data : Option Bytes
  len : Nat
  cap : Nat
  failed : Bool
  deriving DecidableEq

/-- `dynamic_buffer_t buf = {0}` -/
def zeroBuffer : DynamicBuffer := ⟨none, 0, 0, false⟩

/-- The answer of `realloc`: NULL, or memory in which the bytes that are not kept have some
content. -/
abbrev Realloc := Option (Nat → UInt8)

def reallocated (data : Option Bytes) (size : Nat) (fresh : Nat → UInt8) : Bytes :=
  let kept := (data.getD []).take size
  kept ++ (List.range (size - kept.length)).map fresh

/-- The doubling loop; a word has 64 bits, so more rounds than that are never needed. -/
def growCapacity (need : Nat) : Nat → Nat → Nat
  | 0, next => next
  | rounds + 1, next =>
      if next < need then
        if sizeMax / 2 < next then need else growCapacity need rounds (2 * next)
      else next

/-- The flag is false for the return value -1. -/
def dynamicBufferReserve (buf : DynamicBuffer) (extra : Nat) (answer : Realloc) :
    DynamicBuffer × Bool :=
  if buf.failed then (buf, false)
  else if 0 < buf.cap ∧ buf.data = none then ({ buf with failed := true }, false)
  else if buf.data ≠ none ∧ buf.cap ≤ buf.len then ({ buf with failed := true }, false)
  else if u64Sub (sizeMax - 1) buf.len < extra then ({ buf with failed := true }, false)
  else
    let need := u64Add (u64Add buf.len extra) 1
    if need ≤ buf.cap then (buf, true)
    else
      let next := growCapacity need 64 (if buf.cap = 0 then 128 else buf.cap)
      match answer with
      | none => ({ buf with failed := true }, false)
      | some fresh =>
          let data := memwrite (reallocated buf.data next fresh) buf.len [nul]
          ({ buf with data := some data, cap := next }, true)

/-- The first `len` bytes of the source are appended; `none` is a null source. -/
def dynamicBufferAppendMem (buf : DynamicBuffer) (src : Option Bytes) (len : Nat)
    (answer : Realloc) : DynamicBuffer × Bool :=
  if buf.failed then (buf, false)
  else if src = none ∧ 0 < len then ({ buf with failed := true }, false)
  else match dynamicBufferReserve buf len answer with
    | (buf, false) => ({ buf with failed := true }, false)
    | (buf, true) =>
        let copied := memwrite (buf.data.getD []) buf.len ((src.getD []).take len)
        let buf := { buf with data := some copied, len := u64Add buf.len len }
        ({ buf with data := some (memwrite copied buf.len [nul]) }, true)

/-- The content of the buffer is in front of a NUL inside its memory. -/
structure WellFormed (buf : DynamicBuffer) : Prop where
  empty : buf.data = none → buf.len = 0 ∧ buf.cap = 0
  memory : ∀ mem ∈ buf.data, mem.length = buf.cap ∧ buf.len < buf.cap ∧ mem[buf.len]? = some nul
  cap_le : buf.cap ≤ sizeMax

theorem zeroBuffer_wellFormed : WellFormed zeroBuffer := by
  refine ⟨fun _ => ⟨rfl, rfl⟩, ?_, by decide⟩
  intro mem none
  cases none

def contents (buf : DynamicBuffer) : Bytes := (buf.data.getD []).take buf.len

theorem WellFormed.length {buf : DynamicBuffer} (well : WellFormed buf) :
    (contents buf).length = buf.len := by
  cases allocated : buf.data with
  | none => simp [contents, allocated, (well.empty allocated).1]
  | some mem =>
      obtain ⟨size, room, -⟩ := well.memory mem allocated
      simp only [contents, allocated, Option.getD_some, List.length_take]
      omega

theorem WellFormed.len_lt {buf : DynamicBuffer} (well : WellFormed buf) : buf.len < sizeMax := by
  have bound := well.cap_le
  cases allocated : buf.data with
  | none =>
      rw [(well.empty allocated).1]
      decide
  | some mem =>
      obtain ⟨-, room, -⟩ := well.memory mem allocated
      omega

theorem growCapacity_ge {need : Nat} (fits : need ≤ sizeMax) (rounds next : Nat)
    (positive : 0 < next) (bound : next ≤ sizeMax) (enough : need ≤ 2 ^ rounds * next) :
    need ≤ growCapacity need rounds next ∧ next ≤ growCapacity need rounds next ∧
      growCapacity need rounds next ≤ sizeMax := by
  induction rounds generalizing next with
  | zero => exact ⟨by simpa [growCapacity] using enough, le_refl _, bound⟩
  | succ rounds ih =>
      rw [growCapacity]
      split_ifs with short large
      · exact ⟨le_refl _, by omega, fits⟩
      · have doubled : need ≤ 2 ^ rounds * (2 * next) := by
          rw [← Nat.mul_assoc, ← Nat.pow_succ]
          exact enough
        obtain ⟨reached, grown, small⟩ := ih (2 * next) (by omega) (by omega) doubled
        exact ⟨reached, by omega, small⟩
      · exact ⟨by omega, le_refl _, bound⟩

theorem length_reallocated (data : Option Bytes) (size : Nat) (fresh : Nat → UInt8) :
    (reallocated data size fresh).length = size := by
  simp only [reallocated, List.length_append, List.length_map, List.length_range,
    List.length_take]
  omega

theorem take_reallocated (data : Option Bytes) {n size : Nat} (fresh : Nat → UInt8)
    (small : n ≤ (data.getD []).length) (fits : n ≤ size) :
    (reallocated data size fresh).take n = (data.getD []).take n := by
  have kept : n ≤ ((data.getD []).take size).length := by
    rw [List.length_take]
    omega
  rw [reallocated, List.take_append_of_le_length kept, List.take_take, Nat.min_eq_left fits]

theorem terminated {mem : Bytes} {len cap : Nat} (size : mem.length = cap) (room : len < cap)
    (small : cap ≤ sizeMax) (failed : Bool) :
    WellFormed ⟨some (memwrite mem len [nul]), len, cap, failed⟩ ∧
      contents ⟨some (memwrite mem len [nul]), len, cap, failed⟩ = mem.take len := by
  refine ⟨⟨?_, ?_, small⟩, take_memwrite_before (le_refl _) (by omega)⟩
  · intro absent
    cases absent
  · rintro _ ⟨⟩
    refine ⟨?_, room, getElem?_memwrite_start (by omega)⟩
    rw [length_memwrite (by simpa using (show len + 1 ≤ mem.length by omega)), size]

/-- The buffer after a reallocation to what is needed. -/
def grown (buf : DynamicBuffer) (need : Nat) (fresh : Nat → UInt8) : DynamicBuffer :=
  let next := growCapacity need 64 (if buf.cap = 0 then 128 else buf.cap)
  { buf with
    data := some (memwrite (reallocated buf.data next fresh) buf.len [nul]), cap := next }

theorem WellFormed.start {buf : DynamicBuffer} (well : WellFormed buf) :
    0 < (if buf.cap = 0 then 128 else buf.cap) ∧
      (if buf.cap = 0 then 128 else buf.cap) ≤ sizeMax := by
  have bound := well.cap_le
  have maximum : sizeMax = 2 ^ 64 - 1 := rfl
  split_ifs <;> omega

theorem grown_spec {buf : DynamicBuffer} (well : WellFormed buf)
    {need : Nat} (more : buf.len < need) (fits : need ≤ sizeMax) (fresh : Nat → UInt8) :
    WellFormed (grown buf need fresh) ∧ contents (grown buf need fresh) = contents buf ∧
      need ≤ (grown buf need fresh).cap := by
  have maximum : sizeMax = 2 ^ 64 - 1 := rfl
  obtain ⟨positive, bound⟩ := well.start
  have enough : need ≤ 2 ^ 64 * (if buf.cap = 0 then 128 else buf.cap) := by omega
  obtain ⟨reached, -, small⟩ := growCapacity_ge fits 64 _ positive bound enough
  unfold grown
  generalize growCapacity need 64 (if buf.cap = 0 then 128 else buf.cap) = next
    at reached small ⊢
  have held : buf.len ≤ (buf.data.getD []).length := by
    have same := well.length
    rw [contents, List.length_take] at same
    omega
  obtain ⟨kept, same⟩ := terminated (length_reallocated buf.data next fresh)
    (show buf.len < next by omega) small buf.failed
  rw [take_reallocated buf.data fresh held (by omega)] at same
  exact ⟨kept, same, reached⟩

theorem WellFormed.contract {buf : DynamicBuffer} (well : WellFormed buf) :
    ¬ (0 < buf.cap ∧ buf.data = none) ∧ ¬ (buf.data ≠ none ∧ buf.cap ≤ buf.len) := by
  constructor
  · rintro ⟨positive, absent⟩
    have := (well.empty absent).2
    omega
  · rintro ⟨present, full⟩
    obtain ⟨mem, held⟩ := Option.ne_none_iff_exists'.mp present
    have := (well.memory mem held).2.1
    omega

theorem reserve_ready {buf : DynamicBuffer} (well : WellFormed buf) (ready : buf.failed = false)
    (extra : Nat) (answer : Realloc) :
    dynamicBufferReserve buf extra answer =
      if sizeMax - 1 - buf.len < extra then ({ buf with failed := true }, false)
      else if buf.len + extra + 1 ≤ buf.cap then (buf, true)
      else match answer with
        | none => ({ buf with failed := true }, false)
        | some fresh => (grown buf (buf.len + extra + 1) fresh, true) := by
  have small := well.len_lt
  have maximum : sizeMax = 2 ^ 64 - 1 := rfl
  have left : u64Sub (sizeMax - 1) buf.len = sizeMax - 1 - buf.len :=
    u64Sub_of_le (by omega) (by omega)
  rw [dynamicBufferReserve, if_neg (by simp [ready]), if_neg well.contract.1,
    if_neg well.contract.2, left]
  by_cases overflow : sizeMax - 1 - buf.len < extra
  · rw [if_pos overflow, if_pos overflow]
  · have need : u64Add (u64Add buf.len extra) 1 = buf.len + extra + 1 := by
      rw [u64Add_of_lt (show buf.len + extra < 2 ^ 64 by omega), u64Add_of_lt (by omega)]
    rw [if_neg overflow, if_neg overflow, need]
    rfl

/-- Whether a reservation succeeds, and that it leaves the content alone. -/
theorem reserve_spec {buf : DynamicBuffer} (well : WellFormed buf) (ready : buf.failed = false)
    (extra : Nat) (answer : Realloc) :
    ((dynamicBufferReserve buf extra answer).2 = true →
      WellFormed (dynamicBufferReserve buf extra answer).1 ∧
        (dynamicBufferReserve buf extra answer).1.failed = false ∧
        contents (dynamicBufferReserve buf extra answer).1 = contents buf ∧
        (dynamicBufferReserve buf extra answer).1.len = buf.len ∧
        buf.len + extra + 1 ≤ (dynamicBufferReserve buf extra answer).1.cap) ∧
      (answer.isSome → buf.len + extra + 1 ≤ sizeMax →
        (dynamicBufferReserve buf extra answer).2 = true) := by
  have small := well.len_lt
  rw [reserve_ready well ready]
  by_cases overflow : sizeMax - 1 - buf.len < extra
  · rw [if_pos overflow]
    exact ⟨fun returned => by simp at returned, fun _ fits => by omega⟩
  · rw [if_neg overflow]
    by_cases holds : buf.len + extra + 1 ≤ buf.cap
    · rw [if_pos holds]
      exact ⟨fun _ => ⟨well, ready, rfl, rfl, holds⟩, fun _ _ => rfl⟩
    · rw [if_neg holds]
      cases answer with
      | none => exact ⟨fun returned => by simp at returned, fun granted => by simp at granted⟩
      | some fresh =>
          obtain ⟨kept, same, reached⟩ := grown_spec well
            (show buf.len < buf.len + extra + 1 by omega) (by omega) fresh
          exact ⟨fun _ => ⟨kept, ready, same, rfl, reached⟩, fun _ _ => rfl⟩

/-- The bytes are written behind the content, and a NUL behind them. -/
def extended (buf : DynamicBuffer) (bytes : Bytes) : DynamicBuffer :=
  let copied := memwrite (buf.data.getD []) buf.len bytes
  let len := u64Add buf.len bytes.length
  { buf with data := some (memwrite copied len [nul]), len := len }

theorem WellFormed.allocated {buf : DynamicBuffer} (well : WellFormed buf) (present : 0 < buf.cap) :
    ∃ mem, buf.data = some mem ∧ mem.length = buf.cap := by
  obtain ⟨mem, held⟩ := Option.ne_none_iff_exists'.mp fun absent =>
    well.contract.1 ⟨present, absent⟩
  exact ⟨mem, held, (well.memory mem held).1⟩

theorem extended_spec {buf : DynamicBuffer} (well : WellFormed buf) (bytes : Bytes)
    (room : buf.len + bytes.length + 1 ≤ buf.cap) :
    WellFormed (extended buf bytes) ∧ contents (extended buf bytes) = contents buf ++ bytes := by
  obtain ⟨mem, held, size⟩ := well.allocated (by omega)
  have small := well.cap_le
  have maximum : sizeMax = 2 ^ 64 - 1 := rfl
  have longer : u64Add buf.len bytes.length = buf.len + bytes.length := u64Add_of_lt (by omega)
  have written : (memwrite mem buf.len bytes).length = buf.cap := by
    rw [length_memwrite (by omega), size]
  obtain ⟨kept, filled⟩ := terminated written
    (show buf.len + bytes.length < buf.cap by omega) small buf.failed
  rw [take_memwrite (by omega)] at filled
  have before : mem.take buf.len = contents buf := by rw [contents, held, Option.getD_some]
  simp only [extended, Option.getD_some, held, longer]
  exact ⟨kept, by rw [filled, before]⟩

/-- An append that returns 0 appends the bytes, and one that has the memory returns 0. -/
theorem appendMem_spec {buf : DynamicBuffer} (well : WellFormed buf) (ready : buf.failed = false)
    (bytes : Bytes) (answer : Realloc) :
    ((dynamicBufferAppendMem buf (some bytes) bytes.length answer).2 = true →
      WellFormed (dynamicBufferAppendMem buf (some bytes) bytes.length answer).1 ∧
        (dynamicBufferAppendMem buf (some bytes) bytes.length answer).1.failed = false ∧
        contents (dynamicBufferAppendMem buf (some bytes) bytes.length answer).1 =
          contents buf ++ bytes) ∧
      (answer.isSome → buf.len + bytes.length + 1 ≤ sizeMax →
        (dynamicBufferAppendMem buf (some bytes) bytes.length answer).2 = true) := by
  obtain ⟨reserved, granted⟩ := reserve_spec well ready bytes.length answer
  rw [dynamicBufferAppendMem, if_neg (by simp [ready]), if_neg (by simp)]
  generalize dynamicBufferReserve buf bytes.length answer = reply at reserved granted ⊢
  obtain ⟨next, returned⟩ := reply
  cases returned with
  | false => exact ⟨fun h => by simp at h, fun some fits => absurd (granted some fits) (by simp)⟩
  | true =>
      obtain ⟨nextWell, nextReady, same, len, room⟩ : WellFormed next ∧ next.failed = false ∧
        contents next = contents buf ∧ next.len = buf.len ∧
        buf.len + bytes.length + 1 ≤ next.cap := reserved rfl
      obtain ⟨kept, filled⟩ := extended_spec nextWell bytes (len ▸ room)
      refine ⟨fun _ => ?_, fun _ _ => rfl⟩
      simp only [Option.getD_some, List.take_length]
      exact ⟨kept, nextReady, filled.trans (by rw [same])⟩

end StreamDataPipeline.Lib.Buffer
