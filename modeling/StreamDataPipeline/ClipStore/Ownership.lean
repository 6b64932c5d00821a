/- Who frees the memory of clip_store (clip_store.c, db_format.c, db_query.c, db_compact.c). -/

import StreamDataPipeline.ClipStore.Main
import StreamDataPipeline.ClipStore.OwnedBuckets

/-!
A stream counts as one block, and so does the tree of a JSON line. The file system is requested,
too, and consecutive requests that fail alike count as one. The file is what its stream was
given: what a request that fails leaves of it is not told.
-/

set_option autoImplicit false
set_option relaxedAutoImplicit false

namespace StreamDataPipeline.ClipStore.Ownership

open Foundations Foundations.ByteString Foundations.Decimal Foundations.Lines
  Foundations.OwnedBlocks
open Lib.Base64 Lib.JsonlCodec Lib.Libpipeline
open Format Query Compaction Main OwnedBuckets
open BucketIndex (hashKey Holds)

/-- The fields of a line that is split at its TABs. -/
def rowFields (text : Bytes) : Option (Bytes × Bytes × Int) := do
  let (key, rest) ← strchr tab text
  let (value, last) ← strchr tab rest
  let expireAt ← strtolWhole last
  pure (key, value, expireAt)

/-- The text behind the mark `Z:`. -/
def marked : Bytes → Option Bytes
  | 90 :: 58 :: b64 => some b64
  | _ => none

/-- A row that was read; its value is in a block of its own, or in the line. -/
structure ParsedRow where
  row : Row
  alloc : Pointer

section Programs

variable (z : Zlib)

/-- The retries from buffer size `cap` on. They end with the block of the content, if with any. -/
def uncompressLoop (content : Bytes) (comp : Nat) : Nat → Nat → Nat → HeapM (Option (Nat × Bytes))
  | 0, _, _ => .error
  | fuel + 1, cap, uncomp => do
      touch (some comp)
      touch (some uncomp)
      match z.uncompress cap content with
      | .ok out => do
          free (some comp)
          pure (some (uncomp, out))
      | .dataError => do
          free (some comp)
          free (some uncomp)
          pure none
      | .bufError => do
          match ← realloc (some uncomp) with
          | none => do
              free (some uncomp)
              free (some comp)
              pure none
          | some moved => uncompressLoop content comp fuel (cap * 2) moved

/-- The branch of `parse_db_row` for a compressed value. -/
def decompress (b64 : Bytes) (line : Nat) : HeapM (Option (Nat × Bytes)) := do
  match ← malloc with
  | none => pure none
  | some comp => do
      touch (some line)
      touch (some comp)
      match base64Decode 58 b64 (b64.length + 1) with
      | none => do
          free (some comp)
          pure none
      | some content => do
          match ← malloc with
          | none => do
              free (some comp)
              pure none
          | some uncomp =>
              uncompressLoop z content comp (uncompressFuel z content)
                (content.length * 4 + 1024) uncomp

def parseDbRow (text : Bytes) (line : Nat) : HeapM (Option ParsedRow) := do
  touch (some line)
  match rowFields text with
  | none => pure none
  | some (key, value, expireAt) => match marked value with
    | none => pure (some ⟨⟨key, value, expireAt⟩, none⟩)
    | some b64 => do
        match ← decompress z b64 line with
        | none => pure none
        | some (uncomp, out) => do
            touch (some uncomp)
            pure (some ⟨⟨key, cstr out, expireAt⟩, some uncomp⟩)

/-- The loop of `load_latest_rows`, with the buffer of `getline`; false is the return value -1. -/
def loadLines : List Bytes → Pointer → OwnedIndex → HeapM (Pointer × OwnedIndex × Bool)
  | [], buffer, index => do
      let got ← makeRoom buffer
      if got.2 then
        let read ← ask
        pure (got.1, index, read)
      else pure (got.1, index, false)
  | line :: rest, buffer, index => do
      match ← makeRoom buffer with
      | (some buffer, true) => do
          match ← parseDbRow z (cutLine line) buffer with
          | none => loadLines rest (some buffer) index
          | some parsed => do
              let put ← rowIndexPut hashKey index parsed.row (some buffer)
                (parsed.alloc.or (some buffer))
              free parsed.alloc
              if put.2 then loadLines rest (some buffer) put.1
              else pure (some buffer, put.1, false)
      | got => pure (got.1, index, false)

def loadLatestRows (file : Bytes) : HeapM (OwnedIndex × Bool) := do
  let loaded ← loadLines z (pieces lf file) none ownedEmpty
  free loaded.1
  pure loaded.2

/-- `none` is the return value -1, an empty bucket the return value 0. -/
def loadLatestRow (file key : Bytes) : HeapM (Option Bucket) := do
  let loaded ← loadLatestRows z file
  if loaded.2 then
    match ← rowIndexGet hashKey loaded.1 key with
    | none => do
        rowIndexFree loaded.1
        pure (some none)
    | some owned => do
        let copy ← replaceRow none owned.row (some owned.key) (some owned.value)
        rowIndexFree loaded.1
        pure (copy.map some)
  else
    rowIndexFree loaded.1
    pure none

/-- `append_db_row` with the pointers it reads: the content of the file, `none` being the return
value -1. -/
def appendDbRow (reads : List Pointer) (file key value : Bytes) (expireAt : Int) :
    HeapM (Option Bytes) := do
  reads.forM touch
  let sought ← ask
  if !sought then pure none
  else if value = [] then
    let printed ← ask
    pure (if printed then Format.appendDbRow z file key value expireAt else none)
  else
    match ← malloc with
    | none => pure none
    | some comp => match z.compress value with
      | none => do
          free (some comp)
          pure none
      | some content => do
          match ← malloc with
          | none => do
              free (some comp)
              pure none
          | some text => match base64Encode content (4 * ((content.length + 2) / 3) + 1) with
            | none => do
                free (some comp)
                free (some text)
                pure none
            | some b64 => do
                free (some comp)
                touch (some text)
                let printed ← ask
                free (some text)
                pure (if printed then
                  some (file ++ (key ++ [tab] ++ (90 :: 58 :: b64) ++ [tab] ++
                    decimal expireAt ++ [lf]))
                else none)

/-- The loop of `print_rows` over the buckets. -/
def printBuckets (index : OwnedIndex) (start : Option Bytes) (now : Int) :
    List Bucket → HeapM Bytes
  | [] => pure []
  | none :: rest => do
      touch index.used
      printBuckets index start now rest
  | some owned :: rest => do
      touch index.used
      touch index.rows
      touch (some owned.value)
      touch (some owned.key)
      let later ← printBuckets index start now rest
      pure (printBucket start now (some owned.row) ++ later)

def printRows (file : Bytes) (start : Option Bytes) (now : Int) : HeapM (Option Bytes) := do
  let loaded ← loadLatestRows z file
  if loaded.2 then
    let printed ← printBuckets loaded.1 start now loaded.1.buckets
    rowIndexFree loaded.1
    pure (some printed)
  else
    rowIndexFree loaded.1
    pure none

/-- The loop of `db_rewrite_compact` over the buckets, with what is in the new file so far. -/
def appendLiveRows (index : OwnedIndex) (now : Int) : List Bucket → Bytes → HeapM (Option Bytes)
  | [], tmp => pure (some tmp)
  | none :: rest, tmp => do
      touch index.used
      appendLiveRows index now rest tmp
  | some owned :: rest, tmp => do
      touch index.used
      touch index.rows
      touch (some owned.value)
      if !rowIsLive owned.row now then appendLiveRows index now rest tmp
      else
        match ← appendDbRow z [some owned.key, some owned.value] tmp owned.row.key
          owned.row.value owned.row.expireAt with
        | none => pure none
        | some tmp => appendLiveRows index now rest tmp

/-- The compaction from the file on that the rows go to. -/
def rewriteRows (index : OwnedIndex) (now : Int) : HeapM (Option Bytes) := do
  match ← malloc with
  | none => do
      rowIndexFree index
      pure none
  | some tmp => do
      match ← appendLiveRows z index now index.buckets [] with
      | none => do
          free (some tmp)
          rowIndexFree index
          pure none
      | some written => do
          let flushed ← ask
          free (some tmp)
          rowIndexFree index
          if flushed then
            let renamed ← ask
            pure (if renamed then some written else none)
          else pure none

def dbRewriteCompact (file dbPath : Bytes) (now : Int) : HeapM (Option Bytes) := do
  let loaded ← loadLatestRows z file
  if loaded.2 && decide ((dbPath ++ ascii ".tmp").length < pathMax) then
    let opened ← ask
    if opened then rewriteRows z loaded.1 now
    else
      rowIndexFree loaded.1
      pure none
  else
    rowIndexFree loaded.1
    pure none

/-- The tree of a JSON line is built and freed again. False is a tree that was refused. -/
def jsonTree : HeapM Bool := do
  let root ← malloc
  free root
  pure root.isSome

variable (c : CJson)

def clipRecord (line : Bytes) : HeapM (Option (Bytes × Bytes)) := do
  let first ← jsonTree
  if first then
    match jsonlGetString c (stripLine line) (ascii "session_id") 128 with
    | none => pure none
    | some session => do
        let second ← jsonTree
        pure (if second then
          (jsonlGetInt64 c (stripLine line) (ascii "ts")).map fun ts =>
            (clipKey session ts, stripLine line)
        else none)
  else pure none

/-- Appends to the dynamic buffer of the key, as many as are left. -/
def keyBuffer : Nat → Pointer → HeapM (Pointer × Bool)
  | 0, data => pure (data, true)
  | appends + 1, data => do
      let result ← makeRoom data
      if result.2 then keyBuffer appends result.1 else pure result

/-- The reading loop of append mode, with the buffer of `getline`. -/
def appendLoop (ttl : Int) (clock : Nat → Nat) :
    List Bytes → Nat → Bytes → Pointer → HeapM (Pointer × Bytes × Nat)
  | [], _, file, buffer => do
      let got ← makeRoom buffer
      pure (got.1, file, 0)
  | line :: rest, calls, file, buffer => do
      match ← makeRoom buffer with
      | (some buffer, true) => do
          touch (some buffer)
          match ← clipRecord c line with
          | none => appendLoop ttl clock rest calls file (some buffer)
          | some (key, value) => do
              let data ← keyBuffer 3 none
              if data.2 then
                let appended ← appendDbRow z [data.1, some buffer] file key value
                  (expireAt ttl (clock calls))
                free data.1
                match appended with
                | none => pure (some buffer, file, 1)
                | some file => appendLoop ttl clock rest (calls + 1) file (some buffer)
              else
                free data.1
                pure (some buffer, file, 1)
      | got => pure (got.1, file, 0)

/-- The modes of `clip_store_main`. -/
def runMode (ttl : Int) (file : Bytes) (args : Invocation) : HeapM (Bytes × Outcome) :=
  let now := args.clock 0
  match args.mode with
  | .get key => do
      match ← loadLatestRow z file key with
      | none => pure (file, ⟨[], 1⟩)
      | some none => pure (file, ⟨[], 0⟩)
      | some (some owned) => do
          touch (some owned.value)
          free (some owned.key)
          free (some owned.value)
          pure (file, ⟨if rowIsLive owned.row now then owned.row.value ++ [lf] else [], 0⟩)
  | .set arg => match parseSetExpr arg with
    | none => pure (file, ⟨[], 1⟩)
    | some (key, value) =>
        if value = [] then pure (file, ⟨[], 1⟩)
        else do
          match ← appendDbRow z [] file key value (expireAt ttl now) with
          | some file => pure (file, ⟨[], 0⟩)
          | none => pure (file, ⟨[], 1⟩)
  | .delete key =>
      if key = [] then pure (file, ⟨[], 1⟩)
      else do
        match ← appendDbRow z [] file key [] 0 with
        | some file => pure (file, ⟨[], 0⟩)
        | none => pure (file, ⟨[], 1⟩)
  | .list => do
      match ← printRows z file none now with
      | some out => pure (file, ⟨out, 0⟩)
      | none => pure (file, ⟨[], 1⟩)
  | .listPrefix start => do
      match ← printRows z file (some start) now with
      | some out => pure (file, ⟨out, 0⟩)
      | none => pure (file, ⟨[], 1⟩)
  | .compact => do
      match ← dbRewriteCompact z file args.db now with
      | some file => pure (file, ⟨[], 0⟩)
      | none => pure (file, ⟨[], 1⟩)
  | .append stdin => do
      let ended ← appendLoop z c ttl args.clock (pieces lf stdin) 1 file none
      free ended.1
      pure (ended.2.1, ⟨[], ended.2.2⟩)

/-- `clip_store_main` behind the options. -/
def clipStoreMain (file : Bytes) (args : Invocation) : HeapM (Bytes × Outcome) :=
  match parseTtl args.ttlArg with
  | none => pure (file, ⟨[], 1⟩)
  | some ttl => do
      let locked ← ask
      if locked then
        match ← malloc with
        | none => pure (file, ⟨[], 1⟩)
        | some fp => do
            let result ← runMode z c ttl file args
            let _closed ← ask
            free (some fp)
            pure result
      else pure (file, ⟨[], 1⟩)

end Programs

theorem parseDbRow_eq (z : Zlib) (text : Bytes) :
    Format.parseDbRow z text = (rowFields text).bind fun fields =>
      match marked fields.2.1 with
      | none => some ⟨fields.1, fields.2.1, fields.2.2⟩
      | some b64 => ((base64Decode 58 b64 (b64.length + 1)).bind fun content =>
          (uncompressValue z content).map Prod.snd).map fun out =>
            ⟨fields.1, cstr out, fields.2.2⟩ := by
  unfold Format.parseDbRow rowFields
  cases first : strchr tab text with
  | none => rfl
  | some parts =>
      cases second : strchr tab parts.2 with
      | none => simp [second]
      | some fields =>
          simp only [Option.bind_eq_bind, Option.bind_some, second]
          cases strtolWhole fields.2 with
          | none => rfl
          | some expireAt =>
              obtain ⟨value, last⟩ := fields
              simp only [Option.bind_some, Option.pure_def, marked]
              split
              · rename_i b64
                change _ = ((base64Decode 58 b64 (b64.length + 1)).bind fun content =>
                  (uncompressValue z content).map Prod.snd).map fun out => _
                cases base64Decode 58 b64 (b64.length + 1) with
                | none => rfl
                | some content =>
                    rw [Option.bind_some, Option.bind_some]
                    cases uncompressValue z content <;> rfl
              · grind

section Specs

variable {world : World} (z : Zlib)

theorem uncompressFuel_pos (content : Bytes) : 0 < uncompressFuel z content := by
  rw [uncompressFuel]
  cases z.inflate content <;> simp

theorem uncompressLoop_runs (content : Bytes) {comp : Nat} (fuel cap uncomp : Nat)
    (some_fuel : 0 < fuel) (positive : 0 < cap)
    (enough : ∀ out, z.inflate content = some out → out.length < cap + fuel) :
    Runs world ({comp} + {uncomp}) (uncompressLoop z content comp fuel cap uncomp)
      (fun result => result.elim 0 fun found => {found.1})
      fun result => result.map Prod.snd =
          (Format.uncompressLoop z content fuel cap).map Prod.snd ∨
        result = none ∧ Refused world := by
  induction fuel generalizing cap uncomp with
  | zero => exact absurd some_fuel (Nat.lt_irrefl 0)
  | succ fuel ih =>
      rw [uncompressLoop, Format.uncompressLoop]
      refine (touch_runs (by simp)).bind fun _ _ => ?_
      refine (touch_runs (by simp)).bind fun _ _ => ?_
      rcases inflated : z.inflate content with _ | out
      · simp only [Zlib.uncompress, inflated]
        refine (free_runs (some comp)).then rfl fun _ _ => ?_
        refine (free_runs (some uncomp)).then (add_comm _ _) fun _ _ => ?_
        exact .pure rfl (.inl rfl)
      · simp only [Zlib.uncompress, inflated]
        by_cases fits : out.length ≤ cap
        · simp only [if_pos fits]
          refine (free_runs (some comp)).then rfl fun _ _ => ?_
          exact .pure (zero_add _) (.inl rfl)
        · simp only [if_neg fits]
          refine (realloc_runs (some uncomp)).then (add_comm _ _) fun moved no => ?_
          have later := enough out inflated
          cases moved with
          | none =>
              refine (free_runs (some uncomp)).then rfl fun _ _ => ?_
              refine (free_runs (some comp)).then (add_comm _ _) fun _ _ => ?_
              exact .pure rfl (.inr ⟨rfl, no rfl⟩)
          | some moved =>
              refine (ih (cap * 2) moved (by omega) (by omega) fun other same => ?_).weaken
                (add_comm _ _) fun _ post => ⟨rfl, post⟩
              obtain rfl := Option.some.inj (inflated.symm.trans same)
              omega

theorem decompress_runs (b64 : Bytes) (line : Nat) :
    Runs world {line} (decompress z b64 line)
      (fun result => (result.elim 0 fun found => {found.1}) + {line})
      fun result => result.map Prod.snd = ((base64Decode 58 b64 (b64.length + 1)).bind
          fun content => (uncompressValue z content).map Prod.snd) ∨
        result = none ∧ Refused world := by
  refine malloc_runs.then (zero_add _).symm fun comp no => ?_
  cases comp with
  | none => exact .pure rfl (.inr ⟨rfl, no rfl⟩)
  | some comp =>
      refine (touch_runs (by simp)).bind fun _ _ => ?_
      refine (touch_runs (by simp)).bind fun _ _ => ?_
      cases base64Decode 58 b64 (b64.length + 1) with
      | none =>
          refine (free_runs (some comp)).then rfl fun _ _ => ?_
          exact .pure rfl (.inl rfl)
      | some content =>
          refine malloc_runs.then (zero_add _).symm fun uncomp refused => ?_
          cases uncomp with
          | none =>
              rw [blocks_none, zero_add]
              refine (free_runs (some comp)).then rfl fun _ _ => ?_
              exact .pure rfl (.inr ⟨rfl, refused rfl⟩)
          | some uncomp =>
              refine (uncompressLoop_runs z content (uncompressFuel z content) _ uncomp
                (uncompressFuel_pos z content) (by omega) fun out inflated => ?_).frame {line}
                |>.weaken ?_ fun _ post => ⟨rfl, post⟩
              · rw [uncompressFuel, inflated, Option.elim_some]
                omega
              · rw [blocks_some, blocks_some, ← add_assoc, add_comm ({uncomp} : Multiset Nat)]

theorem parseDbRow_runs (text : Bytes) (line : Nat) :
    Runs world {line} (parseDbRow z text line)
      (fun parsed => (parsed.elim 0 fun row => blocks row.alloc) + {line})
      fun parsed => parsed.map ParsedRow.row = Format.parseDbRow z text ∨
        parsed = none ∧ Refused world := by
  rw [parseDbRow_eq]
  refine (touch_runs (Multiset.mem_singleton_self line)).bind fun _ _ => ?_
  rcases rowFields text with _ | ⟨key, value, expireAt⟩
  · exact .pure rfl (.inl rfl)
  dsimp only [Option.bind_some]
  cases marked value with
  | none => exact .pure rfl (.inl rfl)
  | some b64 =>
      refine (decompress_runs z b64 line).bind fun found out => ?_
      have same := out.imp_left fun read =>
        congrArg (Option.map fun out => (⟨key, cstr out, expireAt⟩ : Row)) read
      rcases found with _ | ⟨uncomp, content⟩
      · exact .pure rfl (same.imp_right fun refused => ⟨rfl, refused.2⟩)
      · exact (touch_runs (by simp)).bind fun _ _ => .pure rfl (.inl (same.resolve_right nofun))

/-- What loading comes to: an index that the model could build, and the one that it does build
unless something was refused. -/
def Loaded (world : World) (expected : Option BucketIndex.RowIndex)
    (loaded : OwnedIndex × Bool) : Prop :=
  loaded.1.Sound ∧
    (loaded.2 = true → (∃ log, Holds hashKey loaded.1.plain log) ∧
      (expected = some loaded.1.plain ∨ Refused world)) ∧
    (loaded.2 = false → Refused world)

theorem loadLines_runs (lines : List Bytes) (buffer : Pointer) {index : OwnedIndex}
    {log : List Row} (sound : index.Sound) (holds : Holds hashKey index.plain log) :
    Runs world (blocks buffer + index.blocks) (loadLines z lines buffer index)
      (fun loaded => blocks loaded.1 + loaded.2.1.blocks)
      fun loaded => Loaded world (lines.foldlM (loadLine z) index.plain) loaded.2 := by
  induction lines generalizing buffer index log with
  | nil =>
      refine (makeRoom_runs buffer).then rfl fun got room => ?_
      refine .ite (fun _ => ?_) fun full => ?_
      · refine ask_runs.then (zero_add _).symm fun read no => ?_
        rw [zero_add]
        exact .pure rfl ⟨sound, fun _ => ⟨⟨log, holds⟩, .inl rfl⟩, no⟩
      · exact .pure rfl ⟨sound, nofun, fun _ => room.2 (Bool.not_eq_true _ ▸ full)⟩
  | cons line rest ih =>
      refine (makeRoom_runs buffer).then rfl fun got room => ?_
      rcases got with ⟨_ | buffer, _ | _⟩
      · exact .pure rfl ⟨sound, by simp, fun _ => room.2 rfl⟩
      · exact absurd (room.1 rfl) (by simp)
      · exact .pure rfl ⟨sound, by simp, fun _ => room.2 rfl⟩
      · refine (parseDbRow_runs z (cutLine line) buffer).then rfl fun parsed what => ?_
        rcases parsed with _ | parsed
        · refine (ih (some buffer) sound holds).weaken (by simp) fun loaded done =>
            ⟨rfl, done.1, fun yes => ⟨(done.2.1 yes).1, ?_⟩, done.2.2⟩
          refine what.elim (fun malformed => ?_) fun starved => .inr starved.2
          rw [List.foldlM_cons, loadLine, ← malformed]
          exact (done.2.1 yes).2
        · have keyOwned : ∃ b ∈ blocks parsed.alloc + {buffer}, some buffer = some b :=
            ⟨buffer, by simp, rfl⟩
          have valueOwned : ∃ b ∈ blocks parsed.alloc + {buffer},
              parsed.alloc.or (some buffer) = some b := by
            cases parsed.alloc with
            | none => exact ⟨buffer, by simp, rfl⟩
            | some b => exact ⟨b, by simp, rfl⟩
          refine (rowIndexPut_runs sound holds parsed.row keyOwned valueOwned).weaken
            (add_comm _ _) (fun _ post => ⟨rfl, post⟩) |>.bind fun put done => ?_
          obtain ⟨putSound, run, no⟩ := done
          refine (free_runs parsed.alloc).then (add_left_comm _ _ _) fun _ _ => ?_
          rw [zero_add]
          refine .ite (fun went => ?_) fun failed => ?_
          · obtain ⟨next, put_eq, nextHolds⟩ := BucketIndex.rowIndexPut_spec holds parsed.row
            obtain rfl := Option.some.inj ((run went).symm.trans put_eq)
            have step : loadLine z index.plain line = some put.1.plain := by
              rw [loadLine, ← what.resolve_right (by simp)]
              exact run went
            rw [List.foldlM_cons, step]
            exact (ih (some buffer) putSound nextHolds).weaken (add_comm _ _)
              fun _ post => ⟨rfl, post⟩
          · refine .pure (add_comm _ _) ⟨putSound, by simp, fun _ => no ?_⟩
            exact Bool.not_eq_true _ ▸ failed

theorem loadLatestRows_runs (file : Bytes) :
    Runs world 0 (loadLatestRows z file) (fun loaded => loaded.1.blocks)
      (Loaded world (Query.loadLatestRows z file)) := by
  refine (loadLines_runs z (pieces lf file) none ownedEmpty_sound
    BucketIndex.holds_empty).weaken rfl (fun _ post => ⟨rfl, post⟩) |>.bind fun loaded what => ?_
  refine (free_runs loaded.1).then rfl fun _ _ => ?_
  exact .pure (zero_add _) what

/-- A result that is the one of the model unless something was refused. -/
def Agrees {α : Type} (world : World) (expected result : α) : Prop :=
  result = expected ∨ Refused world

theorem Agrees.congr {α : Type} {expected other result : α}
    (same : other = expected ∨ Refused world) (agrees : Agrees world expected result) :
    Agrees world other result := by
  rcases same with rfl | refused
  · exact agrees
  · exact .inr refused

theorem loadLatestRow_runs (file key : Bytes) :
    Runs world 0 (loadLatestRow z file key)
      (fun found => (found.getD none).elim 0 OwnedRow.blocks)
      fun found => Agrees world (Query.loadLatestRow z file key)
        (found.map fun bucket => bucket.map OwnedRow.row) := by
  refine (loadLatestRows_runs z file).bind fun loaded what => ?_
  obtain ⟨sound, whole, refused⟩ := what
  refine .ite (fun went => ?_) fun failed => ?_
  · obtain ⟨⟨log, holds⟩, same⟩ := whole went
    refine (rowIndexGet_runs sound holds key).bind fun bucket looked => ?_
    obtain ⟨got, there⟩ := looked
    have found : Agrees world (Query.loadLatestRow z file key)
        (some (bucket.map OwnedRow.row)) := by
      refine same.imp_left fun plain => ?_
      rw [Query.loadLatestRow, plain]
      exact got.symm
    cases bucket with
    | none => exact (rowIndexFree_runs sound).bind fun _ _ => .pure rfl found
    | some owned =>
        have inside := bucket_owned (there owned rfl)
        refine (replaceRow_runs none owned.row ⟨_, inside.1, rfl⟩
          ⟨_, inside.2, rfl⟩).weaken (zero_add _).symm (fun _ post => ⟨rfl, post⟩) |>.bind
            fun copy copied => ?_
        obtain ⟨row, no⟩ := copied
        refine (rowIndexFree_runs sound).then (add_comm _ _) fun _ _ => ?_
        rw [zero_add, Option.or_none]
        cases copy with
        | none => exact .pure rfl (.inr (no rfl))
        | some copy =>
            refine .pure rfl (found.imp_left fun same => ?_)
            rw [← same, Option.map_some, Option.map_some, Option.map_some, Option.map_some,
              row copy rfl]
  · refine (rowIndexFree_runs sound).bind fun _ _ => .pure rfl (.inr ?_)
    exact refused (Bool.not_eq_true _ ▸ failed)

theorem appendDbRow_runs {own : Multiset Nat} {reads : List Pointer}
    (owned : ∀ p ∈ reads, ∃ b ∈ own, p = some b) (file key value : Bytes) (expireAt : Int) :
    Runs world own (appendDbRow z reads file key value expireAt) (fun _ => own)
      (Agrees world (Format.appendDbRow z file key value expireAt)) := by
  refine (touches_runs owned).bind fun _ _ => ?_
  refine ask_runs.then (zero_add _).symm fun sought no => ?_
  rw [zero_add]
  refine .ite (fun failed => .pure rfl (.inr (no (by simpa using failed)))) fun _ => ?_
  refine .ite (fun empty => ?_) fun some_value => ?_
  · refine ask_runs.then (zero_add _).symm fun printed no => ?_
    rw [zero_add]
    cases printed with
    | true => exact .pure rfl (.inl rfl)
    | false => exact .pure rfl (.inr (no rfl))
  rw [Format.appendDbRow, if_neg some_value]
  refine malloc_runs.then (zero_add _).symm fun comp no => ?_
  cases comp with
  | none => exact .pure (zero_add _) (.inr (no rfl))
  | some comp =>
      cases z.compress value with
      | none =>
          refine (free_runs (some comp)).then rfl fun _ _ => ?_
          exact .pure (zero_add _) (.inl rfl)
      | some content =>
          refine malloc_runs.then (zero_add _).symm fun text refused => ?_
          cases text with
          | none =>
              rw [blocks_none, zero_add]
              refine (free_runs (some comp)).then rfl fun _ _ => ?_
              exact .pure (zero_add _) (.inr (refused rfl))
          | some text =>
              dsimp only [Option.bind_eq_bind, Option.bind_some]
              cases base64Encode content (4 * ((content.length + 2) / 3) + 1) with
              | none =>
                  refine (free_runs (some comp)).then (add_left_comm _ _ _) fun _ _ => ?_
                  refine (free_runs (some text)).then (zero_add _) fun _ _ => ?_
                  exact .pure (zero_add _) (.inl rfl)
              | some b64 =>
                  refine (free_runs (some comp)).then (add_left_comm _ _ _) fun _ _ => ?_
                  rw [zero_add]
                  refine (touch_runs (by simp)).bind fun _ _ => ?_
                  refine ask_runs.then (zero_add _).symm fun printed no => ?_
                  refine (free_runs (some text)).then (zero_add _) fun _ _ => ?_
                  cases printed with
                  | true => exact .pure (zero_add _) (.inl rfl)
                  | false => exact .pure (zero_add _) (.inr (no rfl))

theorem bucket_reads {index : OwnedIndex} (sound : index.Sound) {rest : List Bucket}
    {bucket : Bucket} (inside : ∀ b ∈ bucket :: rest, b ∈ index.buckets) :
    (∃ b ∈ index.blocks, index.rows = some b) ∧ (∃ b ∈ index.blocks, index.used = some b) ∧
      ∀ owned, bucket = some owned → owned.key ∈ index.blocks ∧ owned.value ∈ index.blocks := by
  have mem := inside bucket List.mem_cons_self
  obtain ⟨rows, used⟩ := sound.arrays (List.ne_nil_of_mem mem)
  exact ⟨rows, used, fun owned eq => bucket_owned (eq ▸ mem)⟩

theorem printBuckets_runs {index : OwnedIndex} (sound : index.Sound) (start : Option Bytes)
    (now : Int) (buckets : List Bucket) (inside : ∀ b ∈ buckets, b ∈ index.buckets) :
    Runs world index.blocks (printBuckets index start now buckets) (fun _ => index.blocks)
      (· = (plainBuckets buckets).flatMap (printBucket start now)) := by
  induction buckets with
  | nil => exact .pure rfl rfl
  | cons bucket rest ih =>
      obtain ⟨rows, used, row⟩ := bucket_reads sound inside
      have later := ih fun b mem => inside b (List.mem_cons_of_mem _ mem)
      cases bucket with
      | none => exact (access_runs used).bind fun _ _ => later
      | some owned =>
          obtain ⟨key, value⟩ := row owned rfl
          refine (access_runs used).bind fun _ _ => (access_runs rows).bind fun _ _ => ?_
          refine (touch_runs value).bind fun _ _ => (touch_runs key).bind fun _ _ => ?_
          exact later.bind fun printed eq => .pure rfl (by rw [eq]; rfl)

theorem printRows_runs (file : Bytes) (start : Option Bytes) (now : Int) :
    Runs world 0 (printRows z file start now) (fun _ => 0)
      (Agrees world (Main.printRows z file start now)) := by
  refine (loadLatestRows_runs z file).bind fun loaded ⟨sound, whole, refused⟩ => ?_
  refine .ite (fun went => ?_) fun failed => ?_
  · refine (printBuckets_runs sound start now loaded.1.buckets fun _ mem => mem).bind
      fun printed eq => ?_
    refine (rowIndexFree_runs sound).bind fun _ _ => .pure rfl ?_
    refine (whole went).2.imp_left fun plain => ?_
    rw [Main.printRows, plain, eq]
    rfl
  · refine (rowIndexFree_runs sound).bind fun _ _ => .pure rfl (.inr ?_)
    exact refused (Bool.not_eq_true _ ▸ failed)

theorem appendLiveRows_runs {index : OwnedIndex} (sound : index.Sound) (now : Int)
    (buckets : List Bucket) (inside : ∀ b ∈ buckets, b ∈ index.buckets) (tmp : Bytes) :
    Runs world index.blocks (appendLiveRows z index now buckets tmp) (fun _ => index.blocks)
      (Agrees world ((plainBuckets buckets).foldlM (appendLiveRow z now) tmp)) := by
  induction buckets generalizing tmp with
  | nil => exact .pure rfl (.inl rfl)
  | cons bucket rest ih =>
      obtain ⟨rows, used, row⟩ := bucket_reads sound inside
      have later := ih fun b mem => inside b (List.mem_cons_of_mem _ mem)
      cases bucket with
      | none => exact (access_runs used).bind fun _ _ => later tmp
      | some owned =>
          obtain ⟨key, value⟩ := row owned rfl
          refine (access_runs used).bind fun _ _ => (access_runs rows).bind fun _ _ => ?_
          refine (touch_runs value).bind fun _ _ => ?_
          simp only [plainBuckets, List.map_cons, Option.map_some, List.foldlM_cons, appendLiveRow]
          refine .ite (fun dead => ?_) fun live => ?_
          · rw [if_pos dead]
            exact later tmp
          · rw [if_neg live]
            have reads : ∀ p ∈ [some owned.key, some owned.value],
                ∃ b ∈ index.blocks, p = some b := by
              intro p mem
              rcases List.mem_pair.mp mem with rfl | rfl
              · exact ⟨_, key, rfl⟩
              · exact ⟨_, value, rfl⟩
            refine (appendDbRow_runs z reads tmp _ _ _).bind fun appended agrees => ?_
            cases appended with
            | none => exact .pure rfl (agrees.imp_left fun same => by rw [← same]; rfl)
            | some tmp =>
                refine (later tmp).weaken rfl fun written same => ⟨rfl, same.congr ?_⟩
                exact agrees.imp_left fun appended => by rw [← appended]; rfl

theorem rewriteRows_runs {index : OwnedIndex} (sound : index.Sound) (now : Int) :
    Runs world index.blocks (rewriteRows z index now) (fun _ => 0)
      (Agrees world (index.plain.buckets.foldlM (appendLiveRow z now) [])) := by
  refine malloc_runs.then (zero_add _).symm fun tmp no => ?_
  cases tmp with
  | none =>
      rw [blocks_none, zero_add]
      exact (rowIndexFree_runs sound).bind fun _ _ => .pure rfl (.inr (no rfl))
  | some tmp =>
      refine (appendLiveRows_runs z sound now index.buckets (fun _ mem => mem) []).then
        (add_comm _ _) fun written agrees => ?_
      cases written with
      | none =>
          refine (free_runs (some tmp)).then (add_comm _ _) fun _ _ => ?_
          rw [zero_add]
          exact (rowIndexFree_runs sound).bind fun _ _ => .pure rfl agrees
      | some written =>
          refine ask_runs.then (zero_add _).symm fun flushed unflushed => ?_
          rw [zero_add]
          refine (free_runs (some tmp)).then (add_comm _ _) fun _ _ => ?_
          rw [zero_add]
          refine (rowIndexFree_runs sound).bind fun _ _ => ?_
          refine .ite (fun _ => ?_) fun no => .pure rfl (.inr (unflushed (Bool.not_eq_true _ ▸ no)))
          refine ask_runs.bind fun renamed no => .pure rfl ?_
          cases renamed with
          | false => exact .inr (no rfl)
          | true => exact agrees

theorem dbRewriteCompact_runs (file dbPath : Bytes) (now : Int) :
    Runs world 0 (dbRewriteCompact z file dbPath now) (fun _ => 0)
      (Agrees world (Compaction.dbRewriteCompact z file dbPath now)) := by
  refine (loadLatestRows_runs z file).bind fun loaded ⟨sound, whole, refused⟩ => ?_
  refine .ite (fun went => ?_) fun failed => ?_
  · simp only [Bool.and_eq_true, decide_eq_true_eq] at went
    refine ask_runs.then (zero_add _).symm fun opened unopened => ?_
    rw [zero_add]
    refine .ite (fun _ => ?_) fun no => (rowIndexFree_runs sound).bind fun _ _ =>
      .pure rfl (.inr (unopened (Bool.not_eq_true _ ▸ no)))
    refine (rewriteRows_runs z sound now).weaken rfl
      fun written agrees => ⟨rfl, agrees.congr ?_⟩
    refine (whole went.1).2.imp_left fun plain => ?_
    rw [Compaction.dbRewriteCompact, plain]
    simp only [Option.bind_eq_bind, Option.bind_some, if_neg (Nat.not_le_of_lt went.2)]
  · refine (rowIndexFree_runs sound).bind fun _ _ => .pure rfl ?_
    cases loaded_ok : loaded.2 with
    | false => exact .inr (refused loaded_ok)
    | true =>
        simp only [loaded_ok, Bool.true_and, decide_eq_true_eq, Nat.not_lt] at failed
        refine (whole loaded_ok).2.imp_left fun plain => ?_
        rw [Compaction.dbRewriteCompact, plain]
        simp only [Option.bind_eq_bind, Option.bind_some, if_pos failed]

theorem jsonTree_runs : Runs world 0 (jsonTree) (fun _ => 0)
    fun built => built = false → Refused world := by
  refine malloc_runs.bind fun root no => ?_
  refine (free_runs root).bind fun _ _ => .pure rfl fun failed => no ?_
  exact Option.isSome_eq_false_iff.mp failed |> Option.isNone_iff_eq_none.mp

variable (c : CJson)

theorem clipRecord_runs (line : Bytes) :
    Runs world 0 (clipRecord c line) (fun _ => 0) (Agrees world (Main.clipRecord c line)) := by
  refine jsonTree_runs.bind fun first no => ?_
  refine .ite (fun _ => ?_) fun failed => .pure rfl (.inr (no (Bool.not_eq_true _ ▸ failed)))
  rw [Main.clipRecord]
  cases jsonlGetString c (stripLine line) (ascii "session_id") 128 with
  | none => exact .pure rfl (.inl rfl)
  | some session =>
      refine jsonTree_runs.bind fun second no => .pure rfl ?_
      cases second with
      | false => exact .inr (no rfl)
      | true =>
          refine .inl ?_
          dsimp only [Option.bind_eq_bind, Option.bind_some]
          cases jsonlGetInt64 c (stripLine line) (ascii "ts") <;> rfl

theorem keyBuffer_runs (appends : Nat) (data : Pointer) :
    Runs world (blocks data) (keyBuffer (appends + 1) data) (fun result => blocks result.1)
      fun result => (result.2 = true → result.1.isSome) ∧
        (result.2 = false → Refused world) := by
  induction appends generalizing data with
  | zero =>
      refine (makeRoom_runs data).bind fun result room => ?_
      exact .ite (fun went => .pure rfl ⟨fun _ => room.1 went, nofun⟩) fun _ => .pure rfl room
  | succ appends ih =>
      refine (makeRoom_runs data).bind fun result room => ?_
      exact .ite (fun _ => ih result.1) fun _ => .pure rfl room

theorem appendLoop_runs (ttl : Int) (clock : Nat → Nat) (lines : List Bytes) (calls : Nat)
    (file : Bytes) (buffer : Pointer) :
    Runs world (blocks buffer) (appendLoop z c ttl clock lines calls file buffer)
      (fun ended => blocks ended.1)
      fun ended => Agrees world (Main.appendLoop c z ttl clock lines calls file) ended.2 := by
  induction lines generalizing calls file buffer with
  | nil => exact (makeRoom_runs buffer).bind fun got _ => .pure rfl (.inl rfl)
  | cons line rest ih =>
      refine (makeRoom_runs buffer).bind fun got room => ?_
      rcases got with ⟨_ | buffer, _ | _⟩
      · exact .pure rfl (.inr (room.2 rfl))
      · exact absurd (room.1 rfl) (by simp)
      · exact .pure rfl (.inr (room.2 rfl))
      · refine (touch_runs (Multiset.mem_singleton_self buffer)).bind fun _ _ => ?_
        refine (clipRecord_runs c line).then (zero_add _).symm fun record agrees => ?_
        rw [zero_add, Main.appendLoop]
        rcases record with _ | ⟨key, value⟩
        · refine (ih calls file (some buffer)).weaken rfl
            fun ended same => ⟨rfl, same.congr ?_⟩
          exact agrees.imp_left fun none => by rw [← none]
        refine (keyBuffer_runs 2 none).then (zero_add _).symm fun data room => ?_
        refine .ite (fun built => ?_) fun failed => ?_
        · obtain ⟨b, eq⟩ := Option.isSome_iff_exists.mp (room.1 built)
          have reads : ∀ p ∈ [data.1, some buffer],
              ∃ b ∈ blocks data.1 + blocks (some buffer), p = some b := by
            intro p mem
            rcases List.mem_pair.mp mem with rfl | rfl
            · exact ⟨b, by simp [eq], eq⟩
            · exact ⟨buffer, by simp, rfl⟩
          refine (appendDbRow_runs z reads file key value _).bind fun appended same => ?_
          refine (free_runs data.1).then rfl fun _ _ => ?_
          rw [zero_add]
          cases appended with
          | none =>
              refine .pure rfl (same.elim (fun same => ?_) .inr)
              refine agrees.imp_left fun record => ?_
              simp only [← record, ← same]
          | some next =>
              refine (ih (calls + 1) next (some buffer)).weaken rfl
                fun ended later => ⟨rfl, later.congr ?_⟩
              refine same.elim (fun same => ?_) .inr
              exact agrees.imp_left fun record => by simp only [← record, ← same]
        · refine (free_runs data.1).then rfl fun _ _ => ?_
          exact .pure (zero_add _) (.inr (room.2 (Bool.not_eq_true _ ▸ failed)))

theorem appendOne_runs (file key value : Bytes) (expireAt : Int) :
    Runs world 0 (do
        match ← appendDbRow z [] file key value expireAt with
        | some file => pure (file, ⟨[], 0⟩)
        | none => pure (file, ⟨[], 1⟩)) (fun _ => 0)
      (Agrees world (match Format.appendDbRow z file key value expireAt with
        | some file => (file, (⟨[], 0⟩ : Outcome))
        | none => (file, ⟨[], 1⟩))) := by
  have reads : ∀ p ∈ ([] : List Pointer), ∃ b ∈ (0 : Multiset Nat), p = some b :=
    fun p mem => absurd mem List.not_mem_nil
  refine (appendDbRow_runs z reads file key value expireAt).bind
    fun appended same => ?_
  cases appended with
  | none => exact .pure rfl (same.imp_left fun same => by simp only [← same])
  | some next => exact .pure rfl (same.imp_left fun same => by simp only [← same])

theorem printMode_runs (file : Bytes) (start : Option Bytes) (now : Int) :
    Runs world 0 (do
        match ← printRows z file start now with
        | some out => pure (file, ⟨out, 0⟩)
        | none => pure (file, ⟨[], 1⟩)) (fun _ => 0)
      (Agrees world (match Main.printRows z file start now with
        | some out => (file, (⟨out, 0⟩ : Outcome))
        | none => (file, ⟨[], 1⟩))) := by
  refine (printRows_runs z file start now).bind fun printed same => ?_
  cases printed with
  | none => exact .pure rfl (same.imp_left fun same => by simp only [← same])
  | some out => exact .pure rfl (same.imp_left fun same => by simp only [← same])

/-- Each mode does what the model says, and owns nothing in the end. -/
theorem runMode_runs {ttl : Int} (file : Bytes) (args : Invocation)
    (given : parseTtl args.ttlArg = some ttl) :
    Runs world 0 (runMode z c ttl file args) (fun _ => 0)
      (Agrees world (Main.clipStoreMain c z file args)) := by
  rw [runMode, Main.clipStoreMain, given]
  dsimp only
  cases args.mode with
  | get key =>
      refine (loadLatestRow_runs z file key).bind fun found agrees => ?_
      rcases found with _ | _ | owned
      · exact .pure rfl (agrees.imp_left fun same => by simp only [← same]; rfl)
      · exact .pure rfl (agrees.imp_left fun same => by simp only [← same]; rfl)
      · refine (touch_runs (by simp [OwnedRow.blocks])).bind fun _ _ => ?_
        refine (free_runs (some owned.key)).then rfl fun _ _ => ?_
        rw [zero_add]
        refine (free_runs (some owned.value)).bind fun _ _ => ?_
        exact .pure rfl (agrees.imp_left fun same => by simp only [← same]; rfl)
  | set arg =>
      dsimp only
      rcases parseSetExpr arg with _ | ⟨key, value⟩
      · exact .pure rfl (.inl rfl)
      · refine .ite (fun empty => ?_) fun some_value => ?_
        · simp only [if_pos empty]
          exact .pure rfl (.inl rfl)
        · simp only [if_neg some_value]
          exact appendOne_runs z file _ _ _
  | delete key =>
      refine .ite (fun empty => ?_) fun some_key => ?_
      · simp only [if_pos empty]
        exact .pure rfl (.inl rfl)
      · simp only [if_neg some_key]
        exact appendOne_runs z file _ _ _
  | list => exact printMode_runs z file none _
  | listPrefix start => exact printMode_runs z file (some start) _
  | compact =>
      refine (dbRewriteCompact_runs z file args.db _).bind fun written same => ?_
      cases written with
      | none => exact .pure rfl (same.imp_left fun same => by simp only [← same])
      | some next => exact .pure rfl (same.imp_left fun same => by simp only [← same])
  | append stdin =>
      refine (appendLoop_runs z c ttl args.clock (pieces lf stdin) 1 file none).bind
        fun ended same => ?_
      refine (free_runs ended.1).bind fun _ _ => .pure rfl ?_
      exact same.imp_left fun same => by simp only [same]

theorem clipStoreMain_runs (c : CJson) (file : Bytes) (args : Invocation) :
    Runs world 0 (clipStoreMain z c file args) (fun _ => 0)
      (Agrees world (Main.clipStoreMain c z file args)) := by
  rw [clipStoreMain]
  cases given : parseTtl args.ttlArg with
  | none => exact .pure rfl (.inl (by rw [Main.clipStoreMain, given]))
  | some ttl =>
      refine ask_runs.bind fun locked no => ?_
      refine .ite (fun _ => ?_) fun failed => .pure rfl (.inr (no (by simpa using failed)))
      refine malloc_runs.bind fun fp refused => ?_
      cases fp with
      | none => exact .pure rfl (.inr (refused rfl))
      | some fp =>
          refine (runMode_runs z c file args given).then (zero_add _).symm fun result agrees => ?_
          refine ask_runs.then (zero_add _).symm fun _ _ => ?_
          refine (free_runs (some fp)).then (by rw [zero_add, add_comm]) fun _ _ => ?_
          exact .pure rfl agrees

end Specs

end StreamDataPipeline.ClipStore.Ownership
