/- Whole runs of the growable byte buffer: a byte list that only grows, with a failure latch. -/

import Mathlib.Data.List.DropRight
import StreamDataPipeline.Foundations.Mealy
import StreamDataPipeline.Lib.Buffer

set_option autoImplicit false
set_option relaxedAutoImplicit false

namespace StreamDataPipeline.Lib.BufferRuns

open Foundations Foundations.Word Foundations.ByteString Buffer

def dynamicBufferFree (buf : DynamicBuffer) : DynamicBuffer :=
  { buf with data := none, len := 0, cap := 0, failed := false }

def dynamicBufferReset (buf : DynamicBuffer) : DynamicBuffer :=
  match buf.data with
  | some mem => { buf with data := some (memwrite mem 0 [nul]), len := 0, failed := false }
  | none => { buf with len := 0, cap := 0, failed := false }

def dynamicBufferAppendChar (buf : DynamicBuffer) (c : UInt8) (answer : Realloc) :
    DynamicBuffer × Bool :=
  match dynamicBufferReserve buf 1 answer with
  | (buf, false) => ({ buf with failed := true }, false)
  | (buf, true) =>
      let stored := memwrite (buf.data.getD []) buf.len [c]
      let buf := { buf with data := some stored, len := u64Add buf.len 1 }
      ({ buf with data := some (memwrite stored buf.len [nul]) }, true)

/-- `none` is a null string. -/
def dynamicBufferAppendStr (buf : DynamicBuffer) (s : Option Bytes) (answer : Realloc) :
    DynamicBuffer × Bool :=
  if buf.failed then (buf, false)
  else match s with
    | none => ({ buf with failed := true }, false)
    | some s => dynamicBufferAppendMem buf (some (cstr s)) (cstr s).length answer

/-- A call of the buffer. The calls that may allocate carry the answer of `realloc`. -/
inductive Op where
  | reserve (extra : Nat) (answer : Realloc)
  | appendChar (c : UInt8) (answer : Realloc)
  | appendMem (src : Bytes) (answer : Realloc)
  | appendNull (len : Nat) (answer : Realloc)
  | appendStr (s : Option Bytes) (answer : Realloc)
  | reset
  | free

/-- The flag is false for the return value -1; the calls without a value count as successful. -/
def step (buf : DynamicBuffer) : Op → DynamicBuffer × Bool
  | .reserve extra answer => dynamicBufferReserve buf extra answer
  | .appendChar c answer => dynamicBufferAppendChar buf c answer
  | .appendMem src answer => dynamicBufferAppendMem buf (some src) src.length answer
  | .appendNull len answer => dynamicBufferAppendMem buf none len answer
  | .appendStr s answer => dynamicBufferAppendStr buf s answer
  | .reset => (dynamicBufferReset buf, true)
  | .free => (dynamicBufferFree buf, true)

/-- The buffer after a sequence of calls, and what each of them returned. -/
abbrev run : DynamicBuffer → List Op → DynamicBuffer × List Bool := Mealy.run step

section Checked

/-- The doubling loop; `none` is a wrap or the end of the rounds. -/
def growChecked (need : Nat) : Nat → Nat → Option Nat
  | 0, _ => none
  | rounds + 1, next =>
      if next < need then
        if sizeMax / 2 < next then some need
        else (checkedAdd next next).bind (growChecked need rounds)
      else some next

/-- The reservation with every size computation and every write checked. -/
def reserveChecked (buf : DynamicBuffer) (extra : Nat) (answer : Realloc) :
    Option (DynamicBuffer × Bool) :=
  if buf.failed then some (buf, false)
  else if 0 < buf.cap ∧ buf.data = none then some ({ buf with failed := true }, false)
  else if buf.data ≠ none ∧ buf.cap ≤ buf.len then some ({ buf with failed := true }, false)
  else (checkedSub (sizeMax - 1) buf.len).bind fun left =>
    if left < extra then some ({ buf with failed := true }, false)
    else (checkedAdd buf.len extra).bind fun sum => (checkedAdd sum 1).bind fun need =>
      if need ≤ buf.cap then some (buf, true)
      else (growChecked need 64 (if buf.cap = 0 then 128 else buf.cap)).bind fun next =>
        match answer with
        | none => some ({ buf with failed := true }, false)
        | some fresh =>
            (checkedWrite (reallocated buf.data next fresh) buf.len [nul]).map fun data =>
              ({ buf with data := some data, cap := next }, true)

/-- What an append does behind its reservation. -/
def extendChecked (buf : DynamicBuffer) (bytes : Bytes) : Option (DynamicBuffer × Bool) :=
  (checkedWrite (buf.data.getD []) buf.len bytes).bind fun copied =>
    (checkedAdd buf.len bytes.length).bind fun len =>
      (checkedWrite copied len [nul]).map fun data =>
        ({ buf with data := some data, len := len }, true)

def appendMemChecked (buf : DynamicBuffer) (src : Option Bytes) (len : Nat)
    (answer : Realloc) : Option (DynamicBuffer × Bool) :=
  if buf.failed then some (buf, false)
  else if src = none ∧ 0 < len then some ({ buf with failed := true }, false)
  else (reserveChecked buf len answer).bind fun reply =>
    if reply.2 then extendChecked reply.1 ((src.getD []).take len)
    else some ({ reply.1 with failed := true }, false)

def appendCharChecked (buf : DynamicBuffer) (c : UInt8) (answer : Realloc) :
    Option (DynamicBuffer × Bool) :=
  (reserveChecked buf 1 answer).bind fun reply =>
    if reply.2 then extendChecked reply.1 [c] else some ({ reply.1 with failed := true }, false)

def stepChecked (buf : DynamicBuffer) : Op → Option (DynamicBuffer × Bool)
  | .reserve extra answer => reserveChecked buf extra answer
  | .appendChar c answer => appendCharChecked buf c answer
  | .appendMem src answer => appendMemChecked buf (some src) src.length answer
  | .appendNull len answer => appendMemChecked buf none len answer
  | .appendStr s answer =>
      if buf.failed then some (buf, false)
      else match s with
        | none => some ({ buf with failed := true }, false)
        | some s => appendMemChecked buf (some (cstr s)) (cstr s).length answer
  | .reset =>
      match buf.data with
      | some mem => (checkedWrite mem 0 [nul]).map fun data =>
          ({ buf with data := some data, len := 0, failed := false }, true)
      | none => some ({ buf with len := 0, cap := 0, failed := false }, true)
  | .free => some (dynamicBufferFree buf, true)

def runChecked (buf : DynamicBuffer) : List Op → Option (DynamicBuffer × List Bool)
  | [] => some (buf, [])
  | op :: rest =>
      (stepChecked buf op).bind fun next =>
        (runChecked next.1 rest).map fun later => (later.1, next.2 :: later.2)

end Checked

section Log

/-- What a buffer is for: bytes that are only appended to, and a latch for failure. -/
structure ByteLog where
  bytes : Bytes
  latched : Bool

/-- The calls that empty the buffer and open the latch. -/
def Op.clears : Op → Bool
  | .reset | .free => true
  | _ => false

/-- The bytes that a successful call appends. -/
def Op.argument : Op → Bytes
  | .appendChar c _ => [c]
  | .appendMem src _ => src
  | .appendStr (some s) _ => cstr s
  | _ => []

/-- The log after a call that returned this. -/
def ByteLog.apply (log : ByteLog) (op : Op) (returned : Bool) : ByteLog :=
  if op.clears then ⟨[], false⟩
  else if returned then { log with bytes := log.bytes ++ op.argument }
  else { log with latched := true }

def logOf (buf : DynamicBuffer) : ByteLog := ⟨contents buf, buf.failed⟩

/-- The calls since the last one that cleared the buffer. -/
def sinceCleared (entries : List (Op × Bool)) : List (Op × Bool) :=
  entries.rtakeWhile fun entry => !entry.1.clears

/-- The arguments of the calls that succeeded since then. -/
def appended (entries : List (Op × Bool)) : Bytes :=
  ((sinceCleared entries).filter (·.2)).flatMap (·.1.argument)

theorem appended_concat (entries : List (Op × Bool)) (op : Op) (returned : Bool) :
    appended (entries ++ [(op, returned)]) =
      if op.clears then []
      else if returned then appended entries ++ op.argument
      else appended entries := by
  rw [appended, sinceCleared, List.rtakeWhile_concat]
  by_cases clears : op.clears = true
  · simp [clears]
  · cases returned <;> simp [clears, appended, sinceCleared]

end Log

section Step

variable {buf : DynamicBuffer}

def latch (buf : DynamicBuffer) : DynamicBuffer × Bool := ({ buf with failed := true }, false)

def append (buf : DynamicBuffer) (bytes : Bytes) (answer : Realloc) : DynamicBuffer × Bool :=
  match dynamicBufferReserve buf bytes.length answer with
  | (next, false) => latch next
  | (next, true) => (extended next bytes, true)

theorem latch_of_failed (failed : buf.failed = true) : latch buf = (buf, false) := by
  obtain ⟨data, len, cap, flag⟩ := buf
  obtain rfl : flag = true := failed
  rfl

theorem reserve_of_failed (failed : buf.failed = true) (extra : Nat) (answer : Realloc) :
    dynamicBufferReserve buf extra answer = (buf, false) := if_pos failed

theorem append_of_failed (failed : buf.failed = true) (bytes : Bytes) (answer : Realloc) :
    append buf bytes answer = (buf, false) := by
  rw [append, reserve_of_failed failed]
  exact latch_of_failed failed

theorem appendMem_eq (buf : DynamicBuffer) (bytes : Bytes) (answer : Realloc) :
    dynamicBufferAppendMem buf (some bytes) bytes.length answer = append buf bytes answer := by
  by_cases failed : buf.failed = true
  · rw [dynamicBufferAppendMem, if_pos failed, append_of_failed failed]
  · rw [dynamicBufferAppendMem, if_neg failed, if_neg (by simp), append]
    generalize dynamicBufferReserve buf bytes.length answer = reply
    obtain ⟨next, granted⟩ := reply
    cases granted with
    | false => rfl
    | true => simp only [Option.getD_some, List.take_length, extended]

theorem appendNull_eq (buf : DynamicBuffer) (len : Nat) (answer : Realloc) :
    dynamicBufferAppendMem buf none len answer =
      if len = 0 then append buf [] answer else latch buf := by
  by_cases failed : buf.failed = true
  · rw [dynamicBufferAppendMem, if_pos failed, append_of_failed failed, latch_of_failed failed,
      ite_self]
  · rw [dynamicBufferAppendMem, if_neg failed]
    by_cases empty : len = 0
    · rw [if_neg (by omega), if_pos empty, empty]
      rfl
    · rw [if_pos ⟨rfl, by omega⟩, if_neg empty]
      rfl

theorem appendStr_eq (buf : DynamicBuffer) (s : Option Bytes) (answer : Realloc) :
    dynamicBufferAppendStr buf s answer =
      match s with
      | none => latch buf
      | some s => append buf (cstr s) answer := by
  cases s with
  | none =>
      by_cases failed : buf.failed = true
      · rw [latch_of_failed failed]
        exact if_pos failed
      · exact if_neg failed
  | some s =>
      by_cases failed : buf.failed = true
      · exact (if_pos failed).trans (append_of_failed failed (cstr s) answer).symm
      · exact (if_neg failed).trans (appendMem_eq buf (cstr s) answer)

theorem latch_spec (well : WellFormed buf) :
    WellFormed (latch buf).1 ∧ logOf (latch buf).1 = ⟨contents buf, true⟩ :=
  ⟨⟨well.empty, well.memory, well.cap_le⟩, rfl⟩

theorem reserve_failed (well : WellFormed buf) (extra : Nat) (answer : Realloc)
    (failed : (dynamicBufferReserve buf extra answer).2 = false) :
    (dynamicBufferReserve buf extra answer).1 = (latch buf).1 := by
  cases latched : buf.failed with
  | true => rw [reserve_of_failed latched, latch_of_failed latched]
  | false =>
      rw [reserve_ready well latched] at failed ⊢
      by_cases large : sizeMax - 1 - buf.len < extra
      · rw [if_pos large]
        rfl
      · rw [if_neg large] at failed ⊢
        by_cases enough : buf.len + extra + 1 ≤ buf.cap
        · rw [if_pos enough] at failed
          cases failed
        · rw [if_neg enough] at failed ⊢
          cases answer with
          | none => rfl
          | some fresh => cases failed

theorem reserve_log (well : WellFormed buf) (extra : Nat) (answer : Realloc) :
    WellFormed (dynamicBufferReserve buf extra answer).1 ∧
      logOf (dynamicBufferReserve buf extra answer).1 =
        (logOf buf).apply (.reserve extra answer) (dynamicBufferReserve buf extra answer).2 := by
  cases returned : (dynamicBufferReserve buf extra answer).2 with
  | false =>
      rw [reserve_failed well extra answer returned]
      exact latch_spec well
  | true =>
      have ready : buf.failed = false := by
        by_contra latched
        rw [reserve_of_failed (by simpa using latched)] at returned
        cases returned
      obtain ⟨kept, unlatched, same, -, -⟩ := (reserve_spec well ready extra answer).1 returned
      refine ⟨kept, ?_⟩
      simp [logOf, ByteLog.apply, Op.clears, Op.argument, same, unlatched, ready]

theorem append_log (well : WellFormed buf) (bytes : Bytes) (answer : Realloc) :
    WellFormed (append buf bytes answer).1 ∧
      logOf (append buf bytes answer).1 =
        if (append buf bytes answer).2 then ⟨contents buf ++ bytes, buf.failed⟩
        else ⟨contents buf, true⟩ := by
  cases latched : buf.failed with
  | true =>
      rw [append_of_failed latched]
      exact ⟨well, by simp [logOf, latched]⟩
  | false =>
      have reserved := (reserve_spec well latched bytes.length answer).1
      have failed := reserve_failed well bytes.length answer
      rw [append]
      generalize dynamicBufferReserve buf bytes.length answer = reply at reserved failed ⊢
      obtain ⟨next, returned⟩ := reply
      cases returned with
      | false =>
          obtain rfl : next = (latch buf).1 := failed rfl
          exact latch_spec (latch_spec well).1
      | true =>
          obtain ⟨kept, unlatched, same, len, room⟩ := reserved rfl
          obtain ⟨longer, filled⟩ := extended_spec kept bytes (len ▸ room)
          refine ⟨longer, ?_⟩
          rw [if_pos rfl, ← same, ← filled, ← unlatched]
          rfl

/-- Every call keeps the buffer well formed and does to its log what the log's own rule says. -/
theorem step_log (well : WellFormed buf) (op : Op) :
    WellFormed (step buf op).1 ∧
      logOf (step buf op).1 = (logOf buf).apply op (step buf op).2 := by
  cases op with
  | reserve extra answer => exact reserve_log well extra answer
  | appendChar c answer => exact append_log well [c] answer
  | appendMem src answer =>
      simp only [step, appendMem_eq]
      exact append_log well src answer
  | appendNull len answer =>
      simp only [step, appendNull_eq]
      split_ifs
      · exact append_log well [] answer
      · exact latch_spec well
  | appendStr s answer =>
      simp only [step, appendStr_eq]
      cases s with
      | none => exact latch_spec well
      | some s => exact append_log well (cstr s) answer
  | reset =>
      simp only [step, dynamicBufferReset]
      cases held : buf.data with
      | none => exact ⟨zeroBuffer_wellFormed, rfl⟩
      | some mem =>
          obtain ⟨size, room, -⟩ := well.memory mem held
          obtain ⟨kept, same⟩ := terminated size (show 0 < buf.cap by omega) well.cap_le false
          exact ⟨kept, congrArg (fun bytes => ByteLog.mk bytes false) same⟩
  | free => exact ⟨zeroBuffer_wellFormed, rfl⟩

theorem step_of_latched (failed : buf.failed = true) {op : Op} (keeps : op.clears = false) :
    step buf op = (buf, false) := by
  cases op with
  | reserve extra answer => exact reserve_of_failed failed extra answer
  | appendChar c answer => exact append_of_failed failed [c] answer
  | appendMem src answer => exact if_pos failed
  | appendNull len answer => exact if_pos failed
  | appendStr s answer => exact if_pos failed
  | reset => cases keeps
  | free => cases keeps

end Step

section Arithmetic

variable {buf : DynamicBuffer}

theorem growChecked_eq (need rounds next : Nat) (bound : next ≤ sizeMax)
    (enough : sizeMax < 2 ^ rounds * next) :
    growChecked need rounds next = some (growCapacity need rounds next) := by
  induction rounds generalizing next with
  | zero => omega
  | succ rounds ih =>
      rw [growChecked, growCapacity]
      by_cases short : next < need
      · rw [if_pos short, if_pos short]
        by_cases large : sizeMax / 2 < next
        · rw [if_pos large, if_pos large]
        · have maximum : sizeMax = 2 ^ 64 - 1 := rfl
          have doubled : sizeMax < 2 ^ rounds * (2 * next) := by
            rw [← Nat.mul_assoc, ← Nat.pow_succ]
            exact enough
          have sum : checkedAdd next next = some (2 * next) := by
            rw [checkedAdd, if_pos (by omega), Nat.two_mul]
          rw [if_neg large, if_neg large, sum, Option.bind_some, ih (2 * next) (by omega) doubled]
      · rw [if_neg short, if_neg short]

theorem reserveChecked_eq (well : WellFormed buf) (extra : Nat) (answer : Realloc) :
    reserveChecked buf extra answer = some (dynamicBufferReserve buf extra answer) := by
  cases latched : buf.failed with
  | true => rw [reserveChecked, if_pos latched, reserve_of_failed latched]
  | false =>
      have small := well.len_lt
      have maximum : sizeMax = 2 ^ 64 - 1 := rfl
      have left : checkedSub (sizeMax - 1) buf.len = some (sizeMax - 1 - buf.len) :=
        if_pos (by omega)
      rw [reserveChecked, if_neg (by simp [latched]), if_neg well.contract.1,
        if_neg well.contract.2, left, Option.bind_some, reserve_ready well latched]
      by_cases overflow : sizeMax - 1 - buf.len < extra
      · rw [if_pos overflow, if_pos overflow]
      · have sum : checkedAdd buf.len extra = some (buf.len + extra) := if_pos (by omega)
        have need : checkedAdd (buf.len + extra) 1 = some (buf.len + extra + 1) :=
          if_pos (by omega)
        obtain ⟨positive, bound⟩ := well.start
        have next := growChecked_eq (buf.len + extra + 1) 64 _ bound (by omega)
        rw [if_neg overflow, if_neg overflow, sum, Option.bind_some, need, Option.bind_some, next,
          Option.bind_some]
        by_cases holds : buf.len + extra + 1 ≤ buf.cap
        · rw [if_pos holds, if_pos holds]
        · rw [if_neg holds, if_neg holds]
          cases answer with
          | none => rfl
          | some fresh =>
              have reached := (grown_spec well (show buf.len < buf.len + extra + 1 by omega)
                (by omega) fresh).2.2
              have fits : buf.len + [nul].length ≤ (reallocated buf.data
                  (growCapacity (buf.len + extra + 1) 64 (if buf.cap = 0 then 128 else buf.cap))
                  fresh).length := by
                rw [length_reallocated, List.length_singleton]
                exact le_trans (by omega) reached
              simp only [checkedWrite_of_le fits, Option.map_some]
              rfl

theorem extendChecked_eq (well : WellFormed buf) {bytes : Bytes}
    (room : buf.len + bytes.length + 1 ≤ buf.cap) :
    extendChecked buf bytes = some (extended buf bytes, true) := by
  obtain ⟨mem, held, size⟩ := well.allocated (by omega)
  have small := well.cap_le
  have maximum : sizeMax = 2 ^ 64 - 1 := rfl
  have sum : checkedAdd buf.len bytes.length = some (u64Add buf.len bytes.length) :=
    checkedAdd_of_lt (by omega)
  have length : u64Add buf.len bytes.length = buf.len + bytes.length := u64Add_of_lt (by omega)
  have first : buf.len + bytes.length ≤ (buf.data.getD []).length := by
    rw [held, Option.getD_some]
    omega
  have second : u64Add buf.len bytes.length + [nul].length ≤
      (memwrite (buf.data.getD []) buf.len bytes).length := by
    rw [length_memwrite first, held, Option.getD_some, length, List.length_singleton]
    omega
  rw [extendChecked, checkedWrite_of_le first, Option.bind_some, sum, Option.bind_some,
    checkedWrite_of_le second]
  rfl

theorem appendChecked_eq (well : WellFormed buf) (bytes : Bytes) (answer : Realloc) :
    ((reserveChecked buf bytes.length answer).bind fun reply =>
      if reply.2 then extendChecked reply.1 bytes else some (latch reply.1)) =
      some (append buf bytes answer) := by
  rw [reserveChecked_eq well, Option.bind_some, append]
  cases latched : buf.failed with
  | true => rw [reserve_of_failed latched]; rfl
  | false =>
      have reserved := (reserve_spec well latched bytes.length answer).1
      generalize dynamicBufferReserve buf bytes.length answer = reply at reserved ⊢
      obtain ⟨next, returned⟩ := reply
      cases returned with
      | false => rfl
      | true =>
          obtain ⟨kept, -, -, len, room⟩ := reserved rfl
          exact extendChecked_eq kept (len ▸ room)

theorem appendMemChecked_eq (well : WellFormed buf) (bytes : Bytes) (answer : Realloc) :
    appendMemChecked buf (some bytes) bytes.length answer = some (append buf bytes answer) := by
  by_cases latched : buf.failed = true
  · rw [appendMemChecked, if_pos latched, append_of_failed latched]
  · rw [appendMemChecked, if_neg latched, if_neg (by simp), Option.getD_some, List.take_length]
    exact appendChecked_eq well bytes answer

/-- No size computation of a call wraps, and every write is inside the memory. -/
theorem stepChecked_eq (well : WellFormed buf) (op : Op) :
    stepChecked buf op = some (step buf op) := by
  cases op with
  | reserve extra answer => exact reserveChecked_eq well extra answer
  | appendChar c answer => exact appendChecked_eq well [c] answer
  | appendMem src answer =>
      rw [stepChecked, step, appendMem_eq]
      exact appendMemChecked_eq well src answer
  | appendNull len answer =>
      rw [stepChecked, step, appendNull_eq]
      by_cases latched : buf.failed = true
      · rw [appendMemChecked, if_pos latched, append_of_failed latched, latch_of_failed latched,
          ite_self]
      · rw [appendMemChecked, if_neg latched]
        by_cases empty : len = 0
        · rw [if_neg (by omega), if_pos empty, empty]
          exact appendChecked_eq well [] answer
        · rw [if_pos ⟨rfl, by omega⟩, if_neg empty]
          rfl
  | appendStr s answer =>
      rw [step, appendStr_eq]
      cases s with
      | none =>
          by_cases latched : buf.failed = true
          · exact (if_pos latched).trans (congrArg some (latch_of_failed latched).symm)
          · exact if_neg latched
      | some s =>
          by_cases latched : buf.failed = true
          · exact (if_pos latched).trans
              (congrArg some (append_of_failed latched (cstr s) answer).symm)
          · exact (if_neg latched).trans (appendMemChecked_eq well (cstr s) answer)
  | reset =>
      simp only [stepChecked, step, dynamicBufferReset]
      cases held : buf.data with
      | none => rfl
      | some mem =>
          obtain ⟨size, room, -⟩ := well.memory mem held
          have fits : 0 + [nul].length ≤ mem.length := by
            rw [List.length_singleton]
            omega
          simp only [checkedWrite_of_le fits, Option.map_some]
  | free => rfl

end Arithmetic

section Runs

theorem run_wellFormed (ops : List Op) : WellFormed (run zeroBuffer ops).1 :=
  Mealy.run_invariant step WellFormed (fun _ => True) (fun _ op well _ => (step_log well op).1)
    zeroBuffer ops zeroBuffer_wellFormed fun _ _ => trivial

theorem runChecked_eq {buf : DynamicBuffer} (well : WellFormed buf) (ops : List Op) :
    runChecked buf ops = some (run buf ops) := by
  induction ops generalizing buf with
  | nil => rfl
  | cons op rest ih =>
      rw [runChecked, stepChecked_eq well, Option.bind_some, ih (step_log well op).1]
      rfl

theorem run_contents (ops : List Op) :
    contents (run zeroBuffer ops).1 = appended (ops.zip (run zeroBuffer ops).2) := by
  induction ops using List.reverseRecOn with
  | nil => rfl
  | append_singleton ops op ih =>
      have moved := (step_log (run_wellFormed ops) op).2
      have bytes := congrArg ByteLog.bytes moved
      rw [run, Mealy.run_append, List.zip_append (Mealy.length_run step zeroBuffer ops).symm,
        Mealy.run_cons, Mealy.run_nil, List.zip_cons_cons, List.zip_nil_right, appended_concat,
        ← ih]
      apply bytes.trans
      rw [ByteLog.apply]
      split_ifs <;> rfl

theorem run_of_latched {buf : DynamicBuffer} (failed : buf.failed = true) {ops : List Op}
    (keeps : ∀ op ∈ ops, op.clears = false) : ∀ returned ∈ (run buf ops).2, returned = false := by
  induction ops with
  | nil => simp
  | cons op rest ih =>
      obtain ⟨first, later⟩ := List.forall_mem_cons.mp keeps
      rw [run, Mealy.run_cons, step_of_latched failed first]
      exact List.forall_mem_cons.mpr ⟨rfl, ih later⟩

/-- After any calls on a zero-initialised buffer: the sizes were computed without a wrap and the
writes stayed inside the memory; the content is that of the successful appends since the last
reset or free, and it is followed by a NUL inside the capacity; a call that fails changes no
content and makes all further ones fail; a reservation makes room. -/
theorem run_refines (ops : List Op) :
    runChecked zeroBuffer ops = some (run zeroBuffer ops) ∧
      contents (run zeroBuffer ops).1 = appended (ops.zip (run zeroBuffer ops).2) ∧
      (∀ mem ∈ (run zeroBuffer ops).1.data, mem.length = (run zeroBuffer ops).1.cap ∧
        (run zeroBuffer ops).1.len < (run zeroBuffer ops).1.cap ∧
        mem[(run zeroBuffer ops).1.len]? = some nul) ∧
      (∀ op, (step (run zeroBuffer ops).1 op).2 = false →
        contents (step (run zeroBuffer ops).1 op).1 = contents (run zeroBuffer ops).1 ∧
        ∀ later : List Op, (∀ next ∈ later, next.clears = false) →
          ∀ returned ∈ (run (step (run zeroBuffer ops).1 op).1 later).2, returned = false) ∧
      ∀ extra answer, (step (run zeroBuffer ops).1 (.reserve extra answer)).2 = true →
        (step (run zeroBuffer ops).1 (.reserve extra answer)).1.len + extra + 1 ≤
          (step (run zeroBuffer ops).1 (.reserve extra answer)).1.cap := by
  have well := run_wellFormed ops
  refine ⟨runChecked_eq zeroBuffer_wellFormed ops, run_contents ops, well.memory, ?_, ?_⟩
  · intro op failed
    have moved := (step_log well op).2
    have keeps : op.clears = false := by
      cases op <;> first | rfl | cases failed
    rw [failed, ByteLog.apply, if_neg (by simp [keeps]), if_neg Bool.false_ne_true] at moved
    exact ⟨congrArg ByteLog.bytes moved,
      fun later cleared => run_of_latched (congrArg ByteLog.latched moved) cleared⟩
  · intro extra answer returned
    have ready : (run zeroBuffer ops).1.failed = false := by
      by_contra latched
      rw [step, reserve_of_failed (by simpa using latched)] at returned
      cases returned
    obtain ⟨-, -, -, len, room⟩ := (reserve_spec well ready extra answer).1 returned
    rw [step, len]
    exact room

end Runs

end StreamDataPipeline.Lib.BufferRuns
