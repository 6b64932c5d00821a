/- The field names of regex mode (log_regex_split_fields in log_regex.c). -/

import StreamDataPipeline.Foundations.StrTok

/-!
The pieces between commas are counted first, for the size of the arrays, and then cut by
`strtok_r`, which skips empty ones. The list is refused when the two numbers differ.
-/

set_option autoImplicit false
set_option relaxedAutoImplicit false

namespace StreamDataPipeline.LogParse.SplitFields

open Foundations.ByteString Foundations.StrTok

def comma : UInt8 := 44

def isComma (b : UInt8) : Bool := b == comma

/-- The two allocated arrays, where the empty list is NULL, and the number of fields. A name
is a pointer into the argument. -/
structure LogT where
  names : List (Option Nat)
  values : List (Option Bytes)
  count : Nat

/-- `log->names[idx] = tok`; fails behind the array. -/
def storeName (log : LogT) (idx tok : Nat) : Option LogT :=
  if idx < log.names.length then some { log with names := log.names.set idx (some tok) } else none

/-- The loop over the tokens, from the call of `strtok_r` at `start` on: the argument, the log
and the number of names at its end, and whether it ended by `return -1`. `none` is an access
outside of an array. Every turn uses a byte of fuel. -/
def nameLoop : Nat → Bytes → Nat → LogT → Nat → Option (Bytes × LogT × Nat × Bool)
  | 0, _, _, _, _ => none
  | fuel + 1, mem, start, log, idx =>
      match strtokR isComma mem start with
      | none => none
      | some (none, mem, _) => some (mem, log, idx, false)
      | some (some tok, mem, save) =>
          if mem[tok]? = some nul then some (mem, log, idx, true)
          else match storeName log idx tok with
            | none => none
            | some log => nameLoop fuel mem save log (idx + 1)

/-- The return value, the argument and the log afterwards. -/
def logRegexSplitFields (namesAllocated valuesAllocated : Bool) (mem : Bytes) (log : LogT) :
    Option (Int × Bytes × LogT) :=
  let count := 1 + (cstr mem).count comma
  if namesAllocated && valuesAllocated then
    let log := { log with names := List.replicate count none, values := List.replicate count none }
    match nameLoop (mem.length + 1) mem 0 log 0 with
    | none => none
    | some (mem, log, _, true) => some (-1, mem, log)
    | some (mem, log, idx, false) =>
        some (if idx = count then 0 else -1, mem, { log with count := idx })
  else some (-1, mem, { log with names := [], values := [] })

/-- The strings that the first `count` names point at. -/
def fieldNames (mem : Bytes) (log : LogT) : List (Option Bytes) :=
  (log.names.take log.count).map (Option.map fun tok => cstr (mem.drop tok))

private theorem cstr_drop_of_nul {mem : Bytes} {tok : Nat} (empty : mem[tok]? = some nul) :
    cstr (mem.drop tok) = [] := by
  obtain ⟨inside, read⟩ := List.getElem?_eq_some_iff.mp empty
  rw [List.drop_eq_getElem_cons inside, read, cstr, List.takeWhile_cons_of_neg (by simp)]

private theorem set_filled {names : List (Option Nat)} {idx : Nat} (room : idx < names.length)
    (tok : Nat) (offsets : List Nat) :
    (names.set idx (some tok)).take (idx + 1) ++ offsets.map some ++
        (names.set idx (some tok)).drop (idx + 1 + offsets.length) =
      names.take idx ++ (tok :: offsets).map some ++
        names.drop (idx + (tok :: offsets).length) := by
  have size : (names.take idx).length = idx := by
    rw [List.length_take, Nat.min_eq_left room.le]
  have shape : names.set idx (some tok) = names.take idx ++ [some tok] ++ names.drop (idx + 1) := by
    rw [List.set_eq_take_append_cons_drop, if_pos room, List.append_assoc, List.singleton_append]
  have front : (names.take idx ++ [some tok]).length = idx + 1 := by
    rw [List.length_append, size, List.length_singleton]
  rw [shape, List.take_left' front, ← List.drop_drop, List.drop_left' front, List.drop_drop]
  simp only [List.append_assoc, List.nil_append, List.map_cons, List.cons_append,
    List.length_cons, Nat.add_assoc, Nat.add_comm 1]

/-- The loop stores where the tokens of the rest of the string begin. It writes into that rest
and, from `idx` on, into the array. -/
theorem nameLoop_spec (behind : Bytes) (fuel : Nat) (before : Bytes) {s : Bytes}
    (nulFree : nul ∉ s) (enough : s.length < fuel) (log : LogT) (idx : Nat)
    (room : idx + (tokens isComma s).length ≤ log.names.length) :
    ∃ (s' : Bytes) (offsets : List Nat),
      nameLoop fuel (before ++ s ++ nul :: behind) before.length log idx =
        some (before ++ s' ++ nul :: behind,
          { log with names := log.names.take idx ++ offsets.map some ++
              log.names.drop (idx + offsets.length) },
          idx + offsets.length, false) ∧
      s'.length = s.length ∧
      offsets.map (fun tok => cstr ((before ++ s' ++ nul :: behind).drop tok)) =
        tokens isComma s := by
  induction fuel generalizing before s log idx with
  | zero => omega
  | succ fuel ih =>
      rw [nameLoop]
      rcases strtokR_cases (show isComma nul = false by decide) before nulFree behind with
        ⟨none, save, ended⟩ |
        ⟨tok, token, used, rest, cut, first, visible, restFree, size, less, read⟩
      · refine ⟨s, [], ?_, rfl, by rw [none, List.map_nil]⟩
        rw [ended]
        simp
      · rw [first, List.length_cons] at room
        have slot : idx < log.names.length := by omega
        have notEmpty : (before ++ used ++ rest ++ nul :: behind)[tok]? ≠ some nul := by
          intro empty
          exact visible ((read rest rfl).symm.trans (cstr_drop_of_nul empty))
        have stored : storeName log idx tok =
            some { log with names := log.names.set idx (some tok) } := if_pos slot
        obtain ⟨rest', offsets, run, size', reads⟩ := ih (before ++ used) restFree (by omega)
          { log with names := log.names.set idx (some tok) } (idx + 1)
          (by simp only [List.length_set]; omega)
        refine ⟨used ++ rest', tok :: offsets, ?_, ?_, ?_⟩
        · rw [cut]
          simp only [if_neg notEmpty, stored]
          rw [run, set_filled slot]
          simp only [List.append_assoc, List.length_cons, Nat.add_assoc, Nat.add_comm 1]
        · rw [List.length_append, size', size]
        · rw [List.map_cons, first, ← List.append_assoc before, reads, read rest' size']

private theorem length_pieces (arg : Bytes) :
    (arg.splitOn comma).length = 1 + arg.count comma := by
  rw [List.splitOn_eq_splitOnP, length_splitOnP, List.count, Nat.add_comm]

/-- Whatever the argument, the names are its non-empty pieces, and the arrays have a place for
every piece. -/
theorem logRegexSplitFields_spec {arg : Bytes} (nulFree : nul ∉ arg) (behind : Bytes)
    (log : LogT) :
    ∃ (arg' : Bytes) (log' : LogT),
      logRegexSplitFields true true (arg ++ nul :: behind) log =
        some (if (tokens isComma arg).length = (arg.splitOn comma).length then 0 else -1,
          arg' ++ nul :: behind, log') ∧
      arg'.length = arg.length ∧
      log'.names.length = (arg.splitOn comma).length ∧
      log'.values = List.replicate (arg.splitOn comma).length none ∧
      log'.count = (tokens isComma arg).length ∧
      fieldNames (arg' ++ nul :: behind) log' = (tokens isComma arg).map some := by
  have few : (tokens isComma arg).length ≤ (arg.splitOn comma).length := length_tokens_le arg
  have seen : 1 + (cstr (arg ++ nul :: behind)).count comma = (arg.splitOn comma).length := by
    rw [cstr_append_nul, cstr_of_nul_free nulFree, length_pieces]
  obtain ⟨arg', offsets, run, size, reads⟩ := nameLoop_spec behind
    ((arg ++ nul :: behind).length + 1) [] nulFree
    (by rw [List.length_append]; omega)
    ⟨List.replicate (arg.splitOn comma).length none,
      List.replicate (arg.splitOn comma).length none, log.count⟩ 0
    (by rw [List.length_replicate]; omega)
  have number : offsets.length = (tokens isComma arg).length := by
    rw [← reads, List.length_map]
  simp only [List.nil_append, List.length_nil, List.take_zero, Nat.zero_add] at run reads
  refine ⟨arg', ⟨offsets.map some ++
      (List.replicate (arg.splitOn comma).length none).drop offsets.length,
    List.replicate (arg.splitOn comma).length none, offsets.length⟩, ?_, size, ?_, rfl, number, ?_⟩
  · rw [logRegexSplitFields]
    simp only [seen, Bool.and_self, if_true, run, number]
  · simp only [List.length_append, List.length_map, List.length_drop, List.length_replicate]
    omega
  · have stored : (offsets.map some).length = offsets.length := List.length_map _
    rw [fieldNames, List.take_left' stored, List.map_map, ← reads, List.map_map]
    rfl

/-- A list is accepted exactly if no piece between commas is empty, and then the names are the
pieces. Every access stays inside the argument and the arrays. -/
theorem split_fields_accepts {arg : Bytes} (nulFree : nul ∉ arg) (behind : Bytes) (log : LogT) :
    ∃ (rc : Int) (arg' : Bytes) (log' : LogT),
      logRegexSplitFields true true (arg ++ nul :: behind) log =
        some (rc, arg' ++ nul :: behind, log') ∧
      arg'.length = arg.length ∧ log'.names.length = arg.count comma + 1 ∧
      log'.values.length = arg.count comma + 1 ∧ (rc = 0 ∨ rc = -1) ∧
      (rc = 0 ↔ ∀ piece ∈ arg.splitOn comma, piece ≠ []) ∧
      (rc = 0 → log'.count = arg.count comma + 1 ∧
        fieldNames (arg' ++ nul :: behind) log' = (arg.splitOn comma).map some) := by
  obtain ⟨arg', log', run, size, names, values, number, reads⟩ :=
    logRegexSplitFields_spec nulFree behind log
  have pieces : (arg.splitOn comma).length = arg.count comma + 1 := by
    rw [length_pieces, Nat.add_comm]
  have accepted : (tokens isComma arg).length = (arg.splitOn comma).length ↔
      ∀ piece ∈ arg.splitOn comma, piece ≠ [] := length_tokens_eq_iff arg
  refine ⟨_, arg', log', run, size, names.trans pieces, ?_, ?_, ?_, ?_⟩
  · rw [values, List.length_replicate, pieces]
  · split_ifs
    · exact .inl rfl
    · exact .inr rfl
  · rw [← accepted]
    split_ifs with whole <;> simp [whole]
  · intro zero
    have whole : (tokens isComma arg).length = (arg.splitOn comma).length := by
      by_contra differ
      rw [if_neg differ] at zero
      omega
    have all : tokens isComma arg = arg.splitOn comma :=
      List.filter_eq_self.mpr fun piece mem => decide_eq_true (accepted.mp whole piece mem)
    exact ⟨number.trans (whole.trans pieces), reads.trans (by rw [all])⟩

theorem split_fields_accepts_three :
    nul ∉ ascii "ts,level,msg" ∧ ∃ (rc : Int) (arg' : Bytes) (log' : LogT),
      logRegexSplitFields true true (ascii "ts,level,msg" ++ nul :: []) ⟨[], [], 0⟩ =
        some (rc, arg' ++ nul :: [], log') ∧
      arg'.length = (ascii "ts,level,msg").length ∧
      log'.names.length = (ascii "ts,level,msg").count comma + 1 ∧
      log'.values.length = (ascii "ts,level,msg").count comma + 1 ∧ (rc = 0 ∨ rc = -1) ∧
      (rc = 0 ↔ ∀ piece ∈ (ascii "ts,level,msg").splitOn comma, piece ≠ []) ∧
      (rc = 0 → log'.count = (ascii "ts,level,msg").count comma + 1 ∧
        fieldNames (arg' ++ nul :: []) log' = ((ascii "ts,level,msg").splitOn comma).map some) :=
  ⟨by decide, split_fields_accepts (by decide) [] ⟨[], [], 0⟩⟩

example : (logRegexSplitFields true true (ascii "ts,,msg" ++ [nul]) ⟨[], [], 0⟩).map Prod.fst =
    some (-1) := by decide

end StreamDataPipeline.LogParse.SplitFields
