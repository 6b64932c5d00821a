/- The clip database is a map whose entries expire. -/

import StreamDataPipeline.Foundations.ExpiringMap
import StreamDataPipeline.Foundations.Mealy
import StreamDataPipeline.ClipStore.Main

/-!
Every run asks for a list of writes. The database file holds their rows in order, so
every query answers as the map after all the writes before it does.
-/

set_option autoImplicit false
set_option relaxedAutoImplicit false

namespace StreamDataPipeline.ClipStore.TtlRefinement

open Foundations Foundations.ByteString Foundations.Lines Foundations.Decimal Foundations.LastWrite
  Foundations.LinearProbing
open Foundations.ExpiringMap Foundations.Json Lib.JsonlCodec Format BucketIndex Query Compaction
  Main

abbrev ClipWrite := Write Bytes Bytes

def expiry (ttl : Int) (now : Nat) : Option Int := if ttl = 0 then none else some (now + ttl)

/-- The writes that the lines of standard input ask for. -/
def lineWrites (c : CJson) (ttl : Int) (clock : Nat → Nat) : List Bytes → Nat → List ClipWrite
  | [], _ => []
  | line :: rest, calls =>
      match clipRecord c line with
      | none => lineWrites c ttl clock rest calls
      | some (key, value) =>
          .put key value (expiry ttl (clock calls)) :: lineWrites c ttl clock rest (calls + 1)

def writesOf (c : CJson) (args : Invocation) : List ClipWrite :=
  match parseTtl args.ttlArg with
  | none => []
  | some ttl => match args.mode with
    | .append stdin => lineWrites c ttl args.clock (pieces lf stdin) 1
    | .set arg => match parseSetExpr arg with
      | some (key, value) => [.put key value (expiry ttl (args.clock 0))]
      | none => []
    | .delete key => [.erase key]
    | _ => []

/-- A write within the bounds of the store: a non-empty key without TAB, CR, LF and NUL, a
non-empty value without NUL, an expiry time that a long can hold. -/
def Admissible (w : ClipWrite) : Prop :=
  w.key ≠ [] ∧ (∀ b ∈ w.key, FieldByte b) ∧
    match w with
    | .put _ value expiry => value ≠ [] ∧ nul ∉ value ∧ ∀ t ∈ expiry, t ≤ longMax
    | .erase _ => True

instance : DecidablePred Admissible
  | .put key value expiry => inferInstanceAs (Decidable (key ≠ [] ∧ (∀ b ∈ key, FieldByte b) ∧
      (value ≠ [] ∧ nul ∉ value ∧ ∀ t ∈ expiry, t ≤ longMax)))
  | .erase key => inferInstanceAs (Decidable (key ≠ [] ∧ (∀ b ∈ key, FieldByte b) ∧ True))

/-- Every live key that starts with `start`, once, with its value. -/
def Lists (m : TtlMap Bytes Bytes) (now : Int) (start out : Bytes) : Prop :=
  ∃ rows : List (Bytes × Bytes),
    out = rows.flatMap (fun row => row.1 ++ [tab] ++ row.2 ++ [lf]) ∧
    (rows.map Prod.fst).Nodup ∧
    ∀ key value, (key, value) ∈ rows ↔ start <+: key ∧ lookup m now key = some value

/-- What a run may print when the map is `m`. -/
def Answers (m : TtlMap Bytes Bytes) (args : Invocation) (out : Bytes) : Prop :=
  match args.mode with
  | .get key => out = match lookup m (args.clock 0) key with
    | some value => value ++ [lf]
    | none => []
  | .list => Lists m (args.clock 0) [] out
  | .listPrefix start => Lists m (args.clock 0) start out
  | _ => out = []

/-- The outputs that the map gives to a sequence of runs. -/
inductive MapRun (c : CJson) : List ClipWrite → List Invocation → List Outcome → Prop
  | nil (history : List ClipWrite) : MapRun c history [] []
  | cons {history : List ClipWrite} {args : Invocation} {out : Outcome}
      {runs : List Invocation} {outs : List Outcome}
      (answers : Answers (after history) args out.stdout)
      (rest : MapRun c (history ++ writesOf c args) runs outs) :
      MapRun c history (args :: runs) (out :: outs)

/-- The row that stands for a write. -/
def rowOf : ClipWrite → Row
  | .put key value expiry => ⟨key, value, expiry.getD 0⟩
  | .erase key => ⟨key, [], 0⟩

/-- An expiry time that is not the mark of a row that stays. -/
def Timed (w : ClipWrite) : Prop :=
  match w with
  | .put _ _ expiry => ∀ t ∈ expiry, 0 < t
  | .erase _ => True

/-- The file holds the rows of a history, one on each line. -/
structure Stores (z : Zlib) (file : Bytes) (history : List ClipWrite) : Prop where
  closed : Closed lf file
  rows : dbRows z file = history.map rowOf
  admissible : ∀ w ∈ history, Admissible w ∧ Timed w

theorem rowOf_key (w : ClipWrite) : (rowOf w).key = w.key := by cases w <;> rfl

private theorem rowOf_storable {w : ClipWrite} (admissible : Admissible w) (timed : Timed w) :
    Storable (rowOf w) := by
  obtain ⟨_, clean, bounds⟩ := admissible
  refine ⟨(rowOf_key w).symm ▸ clean, ?_, ?_⟩
  · cases w with
    | put key value expiry => exact bounds.2.1
    | erase key => simp [rowOf]
  · cases w with
    | put key value expiry =>
        cases expiry with
        | none => exact (by decide : IsLong 0)
        | some t =>
            have high := bounds.2.2 t rfl
            have low : 0 < t := timed t rfl
            simp only [rowOf, Option.getD_some, IsLong]
            unfold longMin
            exact ⟨by omega, high⟩
    | erase key => exact (by decide : IsLong 0)

private theorem live_value {w : ClipWrite} (admissible : Admissible w) (timed : Timed w)
    (now : Int) :
    (if rowIsLive (rowOf w) now then some (rowOf w).value else none) =
      w.effect.bind fun entry => if expired entry.2 now then none else some entry.1 := by
  cases w with
  | erase key => simp [rowOf, rowIsLive, clipRowIsTombstone, Write.effect]
  | put key value expiry =>
      have nonempty : value ≠ [] := admissible.2.2.1
      cases expiry with
      | none => simp [rowOf, rowIsLive, clipRowIsTombstone, clipRowIsExpired, Write.effect, expired,
          nonempty]
      | some t =>
          have positive : 0 < t := timed t rfl
          have mark : t ≠ 0 := by omega
          by_cases gone : t ≤ now <;>
            simp [rowOf, rowIsLive, clipRowIsTombstone, clipRowIsExpired, Write.effect, expired,
              nonempty, mark, gone]

theorem Stores.lookup_eq {z : Zlib} {file : Bytes} {history : List ClipWrite}
    (stores : Stores z file history) (now : Int) (key : Bytes) :
    ((latestRow z file key).bind fun row => if rowIsLive row now then some row.value else none) =
      lookup (after history) now key := by
  have effects : lookup (after history) now key =
      ((lastWrite Write.key history key).bind Write.effect).bind
        fun entry => if expired entry.2 now then none else some entry.1 := by
    rw [lookup, after_apply]
    cases (lastWrite Write.key history key).bind Write.effect <;> rfl
  have mapped : lastWrite Row.key (history.map rowOf) key =
      (lastWrite Write.key history key).map rowOf := lastWrite_map rowOf rowOf_key history key
  rw [effects, latestRow, stores.rows, mapped]
  cases last : lastWrite Write.key history key with
  | none => rfl
  | some w =>
      obtain ⟨admissible, timed⟩ := stores.admissible w (lastWrite_mem last)
      exact live_value admissible timed now

theorem Stores.append {z : Zlib} {file file' : Bytes} {history : List ClipWrite}
    (stores : Stores z file history) {w : ClipWrite} (admissible : Admissible w) (timed : Timed w)
    (appended : appendDbRow z file (rowOf w).key (rowOf w).value (rowOf w).expireAt = some file') :
    Stores z file' (history ++ [w]) := by
  obtain ⟨rows, closed⟩ :=
    dbRows_appendDbRow stores.closed (rowOf_storable admissible timed) appended
  refine ⟨closed, by simp [rows, stores.rows], ?_⟩
  intro v hv
  rcases List.mem_append.mp hv with old | new
  · exact stores.admissible v old
  · exact List.mem_singleton.mp new ▸ ⟨admissible, timed⟩

private theorem expiry_positive {ttl : Int} (nonneg : 0 ≤ ttl) (now : Nat) :
    ∀ t ∈ expiry ttl now, 0 < t := by
  intro t ht
  unfold expiry at ht
  split_ifs at ht with zero
  · cases ht
  · cases ht
    omega

private theorem expireAt_eq {ttl : Int} (nonneg : 0 ≤ ttl) {now : Nat}
    (fits : ∀ t ∈ expiry ttl now, t ≤ longMax) : expireAt ttl now = (expiry ttl now).getD 0 := by
  unfold expireAt expiry at *
  split_ifs at fits ⊢ with zero
  · rfl
  · have high : now + ttl ≤ longMax := fits _ rfl
    have low : longMin ≤ now + ttl := by
      unfold longMin
      omega
    exact longAdd_of_fits ⟨low, high⟩

private theorem appendLoop_stores {c : CJson} {z : Zlib} {ttl : Int} (nonneg : 0 ≤ ttl)
    (clock : Nat → Nat) (lines : List Bytes) {calls : Nat} {file file' : Bytes}
    {history : List ClipWrite} (stores : Stores z file history)
    (admissible : ∀ w ∈ lineWrites c ttl clock lines calls, Admissible w)
    (run : appendLoop c z ttl clock lines calls file = (file', 0)) :
    Stores z file' (history ++ lineWrites c ttl clock lines calls) := by
  induction lines generalizing calls file history with
  | nil =>
      cases run
      simpa [lineWrites] using stores
  | cons line rest ih =>
      rw [appendLoop] at run
      rw [lineWrites] at admissible ⊢
      cases record : clipRecord c line with
      | none =>
          simp only [record] at run admissible ⊢
          exact ih stores admissible run
      | some pair =>
          obtain ⟨key, value⟩ := pair
          simp only [record, List.forall_mem_cons] at run admissible ⊢
          cases appended : appendDbRow z file key value (expireAt ttl (clock calls)) with
          | none =>
              rw [appended] at run
              cases run
          | some next =>
              rw [appended] at run
              rw [expireAt_eq nonneg admissible.1.2.2.2.2] at appended
              have extended :=
                stores.append admissible.1 (expiry_positive nonneg (clock calls)) appended
              have final := ih extended admissible.2 run
              rwa [List.append_assoc] at final

private theorem get_answers {z : Zlib} {file : Bytes} {history : List ClipWrite}
    (stores : Stores z file history) (now : Int) (key : Bytes) :
    (match latestRow z file key with
      | none => []
      | some row => if rowIsLive row now then row.value ++ [lf] else []) =
      match lookup (after history) now key with
      | some value => value ++ [lf]
      | none => [] := by
  rw [← stores.lookup_eq now key]
  cases latestRow z file key with
  | none => rfl
  | some row => by_cases live : rowIsLive row now = true <;> simp [live]

private theorem print_lists {z : Zlib} {file : Bytes} {history : List ClipWrite}
    (stores : Stores z file history) (start : Option Bytes) (now : Int) :
    ∃ out, printRows z file start now = some out ∧
      Lists (after history) now (start.getD []) out := by
  obtain ⟨rows, nodup, printed, members⟩ := printRows_spec z file start now
  refine ⟨_, printed, rows.map fun row => (row.key, row.value), ?_, ?_, ?_⟩
  · rw [List.flatMap_map]
    rfl
  · rw [List.map_map]
    exact nodup
  · intro key value
    rw [← stores.lookup_eq now key]
    simp only [List.mem_map, members, Option.bind_eq_some_iff]
    constructor
    · rintro ⟨row, ⟨last, live, begins⟩, equal⟩
      cases equal
      exact ⟨begins, row, last, by simp [live]⟩
    · rintro ⟨begins, row, last, found⟩
      have same := lastWrite_key last
      split_ifs at found with live
      cases found
      subst same
      exact ⟨row, ⟨last, live, begins⟩, rfl⟩

/-- One successful run keeps the file in step with the history, and answers as the map. -/
theorem clipStoreMain_step (c : CJson) {z : Zlib} {file : Bytes} {history : List ClipWrite}
    (stores : Stores z file history) {args : Invocation} (plain : args.mode ≠ .compact)
    (admissible : ∀ w ∈ writesOf c args, Admissible w)
    (succeeds : (clipStoreMain c z file args).2.status = 0) :
    Stores z (clipStoreMain c z file args).1 (history ++ writesOf c args) ∧
      Answers (after history) args (clipStoreMain c z file args).2.stdout := by
  unfold clipStoreMain at succeeds ⊢
  unfold writesOf at admissible ⊢
  unfold Answers
  cases ttlRead : parseTtl args.ttlArg with
  | none => simp [ttlRead] at succeeds
  | some ttl =>
      have nonneg := (parseTtl_range ttlRead).1
      simp only [ttlRead] at succeeds admissible ⊢
      cases mode : args.mode with
      | append stdin =>
          simp only [mode] at succeeds admissible ⊢
          cases run : appendLoop c z ttl args.clock (pieces lf stdin) 1 file with
          | mk file' status =>
              rw [run] at succeeds
              obtain rfl : status = 0 := succeeds
              exact ⟨appendLoop_stores nonneg args.clock (pieces lf stdin) stores admissible run,
                trivial⟩
      | set arg =>
          simp only [mode] at succeeds admissible ⊢
          cases split : parseSetExpr arg with
          | none => simp [split] at succeeds
          | some pair =>
              obtain ⟨key, value⟩ := pair
              simp only [split, List.mem_singleton, forall_eq] at succeeds admissible ⊢
              by_cases empty : value = []
              · simp [empty] at succeeds
              · rw [if_neg empty] at succeeds ⊢
                cases appended : appendDbRow z file key value (expireAt ttl (args.clock 0)) with
                | none => simp [appended] at succeeds
                | some file' =>
                    rw [expireAt_eq nonneg admissible.2.2.2.2] at appended
                    have timed := expiry_positive nonneg (args.clock 0)
                    exact ⟨stores.append admissible timed appended, rfl⟩
      | get key =>
          simp only [mode, loadLatestRow_eq, List.append_nil] at succeeds ⊢
          rw [← get_answers stores (args.clock 0) key]
          cases latestRow z file key with
          | none => exact ⟨stores, rfl⟩
          | some row => exact ⟨stores, rfl⟩
      | list =>
          obtain ⟨out, printed, lists⟩ := print_lists stores none (args.clock 0)
          simpa [mode, printed] using ⟨stores, lists⟩
      | listPrefix start =>
          obtain ⟨out, printed, lists⟩ := print_lists stores (some start) (args.clock 0)
          simpa [mode, printed] using ⟨stores, lists⟩
      | delete key =>
          simp only [mode, List.mem_singleton, forall_eq] at succeeds admissible ⊢
          have nonempty : key ≠ [] := admissible.1
          rw [if_neg nonempty] at succeeds ⊢
          cases appended : appendDbRow z file key [] 0 with
          | none => simp [appended] at succeeds
          | some file' => exact ⟨stores.append admissible trivial appended, rfl⟩
      | compact => exact absurd mode plain

private theorem runs_answer (c : CJson) (z : Zlib) (runs : List Invocation) {file : Bytes}
    {history : List ClipWrite} (stores : Stores z file history)
    (plain : ∀ args ∈ runs, args.mode ≠ .compact)
    (admissible : ∀ args ∈ runs, ∀ w ∈ writesOf c args, Admissible w)
    (succeed : ∀ out ∈ (Mealy.run (clipStoreMain c z) file runs).2, out.status = 0) :
    MapRun c history runs (Mealy.run (clipStoreMain c z) file runs).2 := by
  induction runs generalizing file history with
  | nil => exact .nil history
  | cons args rest ih =>
      rw [Mealy.run_cons] at succeed ⊢
      simp only [List.forall_mem_cons] at plain admissible succeed
      obtain ⟨next, answers⟩ := clipStoreMain_step c stores plain.1 admissible.1 succeed.1
      exact .cons answers (ih next plain.2 admissible.2 succeed.2)

/-- Every sequence of successful runs on an empty database answers as the map does, for any
JSON parser and any codec that undoes its own compression. -/
theorem clipStore_refines_map (c : CJson) (z : Zlib) (runs : List Invocation)
    (plain : ∀ args ∈ runs, args.mode ≠ .compact)
    (admissible : ∀ args ∈ runs, ∀ w ∈ writesOf c args, Admissible w)
    (succeed : ∀ out ∈ (Mealy.run (clipStoreMain c z) [] runs).2, out.status = 0) :
    MapRun c [] runs (Mealy.run (clipStoreMain c z) [] runs).2 :=
  runs_answer c z runs ⟨.inl rfl, rfl, by simp⟩ plain admissible succeed

def sampleRuns : List Invocation :=
  [⟨ascii "db", ascii "0", .append (ascii "\x7b\"session_id\":\"s\",\"ts\":7\x7d\n"), fun _ => 10⟩,
    ⟨ascii "db", ascii "5", .set (ascii "k=v"), fun _ => 11⟩,
    ⟨ascii "db", ascii "0", .delete (ascii "k"), fun _ => 12⟩,
    ⟨ascii "db", ascii "0", .get (ascii "s:7"), fun _ => 13⟩,
    ⟨ascii "db", ascii "0", .listPrefix (ascii "s"), fun _ => 14⟩]

theorem sampleRuns_answer :
    MapRun (.ofDialect exactDialect) [] sampleRuns
      (Mealy.run (clipStoreMain (.ofDialect exactDialect) storedZlib) [] sampleRuns).2 :=
  clipStore_refines_map (.ofDialect exactDialect) storedZlib sampleRuns (by decide +kernel)
    (by decide +kernel) (by decide +kernel)

end StreamDataPipeline.ClipStore.TtlRefinement
