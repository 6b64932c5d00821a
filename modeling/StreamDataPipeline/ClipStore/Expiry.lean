/- The time to live of a row, from the argument to the query (clip_store_main, parse_db_row,
row_is_live). -/

import StreamDataPipeline.ClipStore.Main

set_option autoImplicit false
set_option relaxedAutoImplicit false

namespace StreamDataPipeline.ClipStore.Expiry

open Foundations.ByteString Foundations.Lines Foundations.Decimal Foundations.Json Lib.JsonlCodec
open Format Query Main

/-- A key and a value that are stored, and the value of the clock that dates them. -/
structure Dated where
  now : Nat
  key : Bytes
  value : Bytes
  deriving DecidableEq

def Dated.row (ttl : Int) (w : Dated) : Row := ⟨w.key, w.value, expireAt ttl w.now⟩

/-- Each record reads the clock once, from some call on. -/
def datedRecords (clock : Nat → Nat) : List (Bytes × Bytes) → Nat → List Dated
  | [], _ => []
  | (key, value) :: rest, calls => ⟨clock calls, key, value⟩ :: datedRecords clock rest (calls + 1)

/-- What a run in set or append mode is given to store. -/
def datedWrites (c : CJson) (args : Invocation) : List Dated :=
  match args.mode with
  | .append stdin => datedRecords args.clock ((pieces lf stdin).filterMap (clipRecord c)) 1
  | .set arg => match parseSetExpr arg with
    | some (key, value) => if value = [] then [] else [⟨args.clock 0, key, value⟩]
    | none => []
  | _ => []

/-- The new file is the old one with a printed line for each of the writes. -/
def Prints (z : Zlib) (ttl : Int) (writes : List Dated) (file file' : Bytes) : Prop :=
  ∃ lines, List.Forall₂ (fun w line => rowLine z (w.row ttl) = some line) writes lines ∧
    file' = file ++ lines.flatten

/-- The reader makes a row with this key and value out of the printed line. -/
def ReadBack (z : Zlib) (ttl : Int) (w : Dated) (row : Row) : Prop :=
  ∃ line, rowLine z (w.row ttl) = some line ∧ row ∈ dbRows z line ∧
    row.key = w.key ∧ row.value = w.value

/-- From its writing on the row is live for `ttl` seconds, and for ever where that is 0. -/
structure TtlHonoured (ttl : Int) (now : Nat) (row : Row) : Prop where
  no_overflow : ttl ≠ 0 → row.expireAt = now + ttl
  live_iff : ∀ t : Int, now ≤ t → (rowIsLive row t = true ↔ ttl = 0 ∨ t < now + ttl)

theorem rowIsLive_iff {row : Row} (nonempty : row.value ≠ []) (t : Int) :
    rowIsLive row t = true ↔ row.expireAt = 0 ∨ t < row.expireAt := by
  simp only [rowIsLive, clipRowIsTombstone, clipRowIsExpired, nonempty, decide_false,
    Bool.not_false, Bool.true_and, Bool.not_eq_true', Bool.and_eq_false_iff,
    decide_eq_false_iff_not, not_not, not_le]

theorem ttlHonoured_iff {ttl : Int} (range : 0 ≤ ttl ∧ IsLong ttl) {now : Nat}
    (clock : (now : Int) ≤ longMax) {row : Row} (nonempty : row.value ≠ [])
    (dated : row.expireAt = expireAt ttl now) :
    TtlHonoured ttl now row ↔ ttl = 0 ∨ now + ttl ≤ longMax := by
  obtain ⟨nonneg, long⟩ := range
  have low : longMin ≤ now := by
    unfold longMin
    omega
  by_cases forever : ttl = 0
  · refine iff_of_true ⟨fun timed => absurd forever timed, fun t _ => ?_⟩ (.inl forever)
    rw [rowIsLive_iff nonempty, dated, expireAt, if_pos forever]
    exact iff_of_true (.inl rfl) (.inl forever)
  rw [expireAt, if_neg forever] at dated
  by_cases fits : now + ttl ≤ longMax
  · have exact_sum : row.expireAt = now + ttl := by
      rw [dated]
      apply longAdd_of_fits
      exact ⟨by omega, fits⟩
    refine iff_of_true ⟨fun _ => exact_sum, fun t _ => ?_⟩ (.inr fits)
    rw [rowIsLive_iff nonempty, exact_sum]
    have positive : (now : Int) + ttl ≠ 0 := by omega
    simp [positive, forever]
  · refine iff_of_false (fun honoured => ?_) (by simp [forever, fits])
    -- The wrapped sum is negative, so the row counts as expired when it is written.
    have wrapped := longAdd_beyond ⟨low, clock⟩ long (not_le.mp fits)
    have live := (honoured.live_iff now (le_refl _)).mpr (.inr (by omega))
    rw [rowIsLive_iff nonempty, dated, wrapped] at live
    have high := long.2
    unfold longMax at clock high
    omega

theorem readBack_row {z : Zlib} {ttl : Int} {w : Dated} (storable : Storable (w.row ttl))
    {line : Bytes} (printed : rowLine z (w.row ttl) = some line) :
    ReadBack z ttl w (w.row ttl) := by
  refine ⟨line, printed, ?_, rfl, rfl⟩
  obtain ⟨stored, written, rfl⟩ := Option.map_eq_some_iff.mp printed
  rw [dbRows_eq_rowLines, rowLines_rowText storable written]
  exact List.mem_singleton_self _

theorem ReadBack.row_eq {z : Zlib} {ttl : Int} {w : Dated} {row : Row}
    (back : ReadBack z ttl w row) : row = w.row ttl := by
  obtain ⟨line, printed, read, key, value⟩ := back
  have readable := dbRows_storable z line row read
  have storable : Storable (w.row ttl) := by
    constructor
    · intro b mem
      exact readable.key_clean b (key.symm ▸ mem)
    · exact fun mem => readable.value_nul_free (value.symm ▸ mem)
    · exact expireAt_long ttl w.now
  obtain ⟨stored, written, rfl⟩ := Option.map_eq_some_iff.mp printed
  rw [dbRows_eq_rowLines, rowLines_rowText storable written] at read
  exact List.mem_singleton.mp read

private theorem clipRecord_value {c : CJson} (noText : c.parseWithOpts [] = none)
    {line key value : Bytes} (record : clipRecord c line = some (key, value)) : value ≠ [] := by
  obtain ⟨session, sessionRead, rest⟩ := Option.bind_eq_some_iff.mp record
  obtain ⟨ts, -, equal⟩ := Option.bind_eq_some_iff.mp rest
  cases equal
  intro empty
  rw [empty] at sessionRead
  simp [jsonlGetString, parseObject, noText] at sessionRead

theorem datedRecords_record {clock : Nat → Nat} {records : List (Bytes × Bytes)} {calls : Nat}
    {w : Dated} (mem : w ∈ datedRecords clock records calls) : (w.key, w.value) ∈ records := by
  induction records generalizing calls with
  | nil => cases mem
  | cons record rest ih =>
      rw [datedRecords] at mem
      rcases List.mem_cons.mp mem with rfl | later
      · exact List.mem_cons_self
      · exact List.mem_cons_of_mem _ (ih later)

theorem datedWrites_value {c : CJson} (noText : c.parseWithOpts [] = none) (args : Invocation) :
    ∀ w ∈ datedWrites c args, w.value ≠ [] := by
  unfold datedWrites
  split
  · intro w mem
    obtain ⟨line, -, recorded⟩ := List.mem_filterMap.mp (datedRecords_record mem)
    exact clipRecord_value noText recorded
  · split
    · split_ifs with empty
      · simp
      · simpa using empty
    · simp
  · simp

theorem prints_nil (z : Zlib) (ttl : Int) (file : Bytes) : Prints z ttl [] file file :=
  ⟨[], .nil, by simp⟩

theorem prints_cons {z : Zlib} {ttl : Int} {w : Dated} {rest : List Dated}
    {file next file' : Bytes}
    (appended : appendDbRow z file w.key w.value (expireAt ttl w.now) = some next)
    (prints : Prints z ttl rest next file') : Prints z ttl (w :: rest) file file' := by
  obtain ⟨lines, printed, rfl⟩ := prints
  rw [show appendDbRow z file w.key w.value (expireAt ttl w.now) =
    (rowLine z (w.row ttl)).map (file ++ ·) from appendDbRow_line z file (w.row ttl)] at appended
  obtain ⟨line, first, rfl⟩ := Option.map_eq_some_iff.mp appended
  exact ⟨line :: lines, .cons first printed, by simp⟩

theorem appendLoop_prints (c : CJson) (z : Zlib) (ttl : Int) (clock : Nat → Nat)
    (lines : List Bytes) (calls : Nat) (file : Bytes) :
    ∃ done, done <+: datedRecords clock (lines.filterMap (clipRecord c)) calls ∧
      ((appendLoop c z ttl clock lines calls file).2 = 0 →
        done = datedRecords clock (lines.filterMap (clipRecord c)) calls) ∧
      Prints z ttl done file (appendLoop c z ttl clock lines calls file).1 := by
  induction lines generalizing calls file with
  | nil => exact ⟨[], List.nil_prefix, fun _ => rfl, prints_nil z ttl file⟩
  | cons line rest ih =>
      cases record : clipRecord c line with
      | none =>
          simp only [appendLoop, record, List.filterMap_cons]
          exact ih calls file
      | some pair =>
          obtain ⟨key, value⟩ := pair
          simp only [appendLoop, record, List.filterMap_cons, datedRecords]
          cases appended : appendDbRow z file key value (expireAt ttl (clock calls)) with
          | none => exact ⟨[], List.nil_prefix, fun failed => absurd failed one_ne_zero,
              prints_nil z ttl file⟩
          | some next =>
              obtain ⟨done, start, whole, prints⟩ := ih (calls + 1) next
              refine ⟨⟨clock calls, key, value⟩ :: done, ?_, ?_, prints_cons appended prints⟩
              · exact (List.prefix_cons_inj _).mpr start
              · intro zero
                rw [whole zero]

/-- A run in set or append mode prints a first part of what it is given, and all of it where
it returns 0. -/
theorem clipStoreMain_prints (c : CJson) (z : Zlib) (file : Bytes) {args : Invocation}
    (stores : (∃ stdin, args.mode = .append stdin) ∨ ∃ arg, args.mode = .set arg) {ttl : Int}
    (given : parseTtl args.ttlArg = some ttl) :
    ∃ done, done <+: datedWrites c args ∧
      ((clipStoreMain c z file args).2.status = 0 → done = datedWrites c args) ∧
      Prints z ttl done file (clipStoreMain c z file args).1 := by
  rcases stores with ⟨stdin, mode⟩ | ⟨arg, mode⟩
  · simp only [clipStoreMain, datedWrites, given, mode]
    exact appendLoop_prints c z ttl args.clock (pieces lf stdin) 1 file
  · simp only [clipStoreMain, datedWrites, given, mode]
    cases parsed : parseSetExpr arg with
    | none => exact ⟨[], List.nil_prefix, fun _ => rfl, prints_nil z ttl file⟩
    | some pair =>
        obtain ⟨key, value⟩ := pair
        dsimp only
        split_ifs with empty
        · exact ⟨[], List.nil_prefix, fun _ => rfl, prints_nil z ttl file⟩
        · cases appended : appendDbRow z file key value (expireAt ttl (args.clock 0)) with
          | none => exact ⟨[], List.nil_prefix, fun failed => absurd failed one_ne_zero,
              prints_nil z ttl file⟩
          | some next => exact ⟨_, List.prefix_rfl, fun _ => rfl,
              prints_cons appended (prints_nil z ttl next)⟩

/-- Every row that a run prints and that is read back honours its time to live exactly where
the clock and the time to live add up to a long. -/
theorem ttl_honoured_iff {c : CJson} (noText : c.parseWithOpts [] = none) (z : Zlib)
    (file : Bytes) {args : Invocation}
    (stores : (∃ stdin, args.mode = .append stdin) ∨ ∃ arg, args.mode = .set arg) {ttl : Int}
    (given : parseTtl args.ttlArg = some ttl) :
    ∃ done, done <+: datedWrites c args ∧
      ((clipStoreMain c z file args).2.status = 0 → done = datedWrites c args) ∧
      Prints z ttl done file (clipStoreMain c z file args).1 ∧
      ∀ w ∈ done, (w.now : Int) ≤ longMax → ∀ row, ReadBack z ttl w row →
        (TtlHonoured ttl w.now row ↔ ttl = 0 ∨ w.now + ttl ≤ longMax) := by
  obtain ⟨done, start, whole, prints⟩ := clipStoreMain_prints c z file stores given
  refine ⟨done, start, whole, prints, ?_⟩
  intro w mem clock row back
  obtain rfl := back.row_eq
  have nonempty : w.value ≠ [] := datedWrites_value noText args w (start.subset mem)
  exact ttlHonoured_iff (parseTtl_range given) clock nonempty rfl

def setRun (ttlArg : String) : Invocation where
  db := ascii "db"
  ttlArg := ascii ttlArg
  mode := .set (ascii "k=v")
  clock := fun _ => 1

theorem ttl_honoured_setRun :
    ∃ done, done <+: datedWrites (.ofDialect exactDialect) (setRun "5") ∧
      ((clipStoreMain (.ofDialect exactDialect) storedZlib [] (setRun "5")).2.status = 0 →
        done = datedWrites (.ofDialect exactDialect) (setRun "5")) ∧
      Prints storedZlib 5 done []
        (clipStoreMain (.ofDialect exactDialect) storedZlib [] (setRun "5")).1 ∧
      ∀ w ∈ done, (w.now : Int) ≤ longMax → ∀ row, ReadBack storedZlib 5 w row →
        (TtlHonoured 5 w.now row ↔ (5 : Int) = 0 ∨ w.now + (5 : Int) ≤ longMax) :=
  ttl_honoured_iff (by decide +kernel) storedZlib [] (.inr ⟨_, rfl⟩) (by decide +kernel)

/-- With the longest time to live the row counts as expired in the second of its writing, and
a query does not find it. -/
theorem longest_ttl_expired :
    parseTtl (setRun "9223372036854775807").ttlArg = some longMax ∧
      (∃ w ∈ datedWrites (.ofDialect exactDialect) (setRun "9223372036854775807"), w.now = 1 ∧
        ∃ row, ReadBack storedZlib longMax w row ∧ rowIsLive row w.now = false ∧
          ¬ TtlHonoured longMax w.now row) ∧
      (clipStoreMain (.ofDialect exactDialect) storedZlib
        (clipStoreMain (.ofDialect exactDialect) storedZlib []
          (setRun "9223372036854775807")).1
        { setRun "0" with mode := .get (ascii "k") }).2 = ⟨[], 0⟩ := by
  have readBack : ReadBack storedZlib longMax ⟨1, ascii "k", ascii "v"⟩
      (Dated.row longMax ⟨1, ascii "k", ascii "v"⟩) :=
    readBack_row ⟨by decide, by decide, expireAt_long longMax 1⟩ rfl
  refine ⟨by decide +kernel, ⟨_, ?_, rfl, _, readBack, by decide +kernel, ?_⟩, by decide +kernel⟩
  · decide +kernel
  · intro honoured
    have live := (honoured.live_iff 1 (le_refl _)).mpr (.inr (by decide))
    exact absurd live (by decide +kernel)

end StreamDataPipeline.ClipStore.Expiry
