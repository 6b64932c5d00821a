/- The byte ranges that extract_udp_clips.sh copies out of the session files. -/

import StreamDataPipeline.ClipStore.Options
import StreamDataPipeline.Foundations.Grouping
import StreamDataPipeline.UdpStream.ClipRows
import StreamDataPipeline.UdpStream.Ingested

/-!
A directory is the list of the files that were written to it; of several writes of one name the
last counts. The session files lie outside the directory that is written, and not every name may
be one that can be written there. `none` is an exit with an error. The copies for a player and the
manifest are left out.
-/

set_option autoImplicit false
set_option relaxedAutoImplicit false

namespace StreamDataPipeline.UdpStream.Extractor

open Foundations.ByteString Foundations.Decimal Foundations.LastWrite Foundations.FirstDistinct
  Foundations.Grouping
open Foundations.Getopt Lib.JsonlCodec ClipStore.Format ClipStore.Main ClipStore.Options
open Datagram ClipRows Ingested

abbrev Directory := List (Bytes × Bytes)

def readFile (dir : Directory) (name : Bytes) : Option Bytes :=
  (lastWrite Prod.fst dir name).map Prod.snd

/-- `str.isalnum` of an ASCII character. -/
def isPyAlnum (b : UInt8) : Bool :=
  isDigit b || (65 ≤ b && b ≤ 90) || (97 ≤ b && b ≤ 122)

/-- A byte that goes on with a character of several bytes. -/
def isContinuation (b : UInt8) : Bool := 128 ≤ b && b < 192

/-- The characters of a text in UTF-8. -/
def characters : Bytes → List Bytes
  | [] => []
  | b :: rest => match characters rest with
    | (next :: char) :: more =>
        if isContinuation next then (b :: next :: char) :: more else [b] :: (next :: char) :: more
    | _ => [[b]]

def keepsChar (py : Python) : Bytes → Bool
  | [b] => isPyAlnum b || b == 45 || b == underscore
  | char => py.isAlnum char

def safeName (py : Python) (text : Bytes) : Bytes :=
  let name := (characters text).flatMap fun char => if keepsChar py char then char else [underscore]
  let trimmed := (name.dropWhile (· == underscore)).rdropWhile (· == underscore)
  if trimmed = [] then ascii "clip" else trimmed

/-- Every read takes at least a byte, so the length bounds the reads. -/
def copyLoop : Nat → Bytes → Nat → Option Bytes
  | _, _, 0 => some []
  | 0, _, _ + 1 => none
  | reads + 1, rest, remaining + 1 =>
      let chunk := rest.take (min (1024 * 1024) (remaining + 1))
      if chunk = [] then none
      else (copyLoop reads (rest.drop chunk.length) (remaining + 1 - chunk.length)).map (chunk ++ ·)

def copyRange (source : Bytes) (offset length : Int) : Option Bytes :=
  if length ≤ 0 ∨ offset < 0 then none
  else copyLoop length.toNat (source.drop offset.toNat) length.toNat

/-- The format `04d`. -/
def indexText (index : Nat) : Bytes :=
  List.replicate (4 - (decimalNat index).length) 48 ++ decimalNat index

def rawName (py : Python) (index : Nat) (row : ClipRow) : Bytes :=
  indexText index ++ ascii "_" ++ safeName py row.session ++ ascii "_" ++
    safeName py row.tsText ++ ascii "_off" ++ decimal row.offset ++ ascii "_len" ++
      decimal row.length ++ ascii ".bin"

def orderedName (session : Bytes) : Bytes := session ++ ascii "_ordered.bin"

structure Extraction where
  raw : Directory
  combined : List (Bytes × List Bytes)

/-- What the script finds: the session files, and the names that can be written. -/
structure Disk where
  files : Bytes → Option Bytes
  writes : Bytes → Bool

/-- The loop over the records. -/
def extractRows (py : Python) (disk : Disk) :
    Nat → List ClipRow → Extraction → Option Extraction
  | _, [], done => some done
  | index, row :: rest, done => do
      let source ← disk.files row.path
      let bytes ← copyRange source row.offset row.length
      if disk.writes (rawName py index row) then
        extractRows py disk (index + 1) rest
          ⟨done.raw ++ [(rawName py index row, bytes)],
            addTo (safeName py row.session) (rawName py index row) done.combined⟩
      else none

/-- The loop over the sessions. -/
def writeOrdered (disk : Disk) : List (Bytes × List Bytes) → Directory → Option Directory
  | [], raw => some raw
  | (session, paths) :: rest, raw =>
      if disk.writes (orderedName session) then do
        let parts ← paths.mapM (readFile raw)
        writeOrdered disk rest (raw ++ [(orderedName session, parts.flatten)])
      else none

/-- The directory `raw` behind a run, for what the query has printed. -/
def extract (py : Python) (disk : Disk) (raw : Directory) (stdout : Bytes) : Option Directory := do
  let rows ← queryClipRecords py stdout
  if rows = [] then none
  else do
    let done ← extractRows py disk 1 rows ⟨raw, []⟩
    writeOrdered disk done.combined done.raw

/-- The command line of the query. -/
def queryArgv (program db session : Bytes) : List Bytes :=
  [program, ascii "--db", db] ++
    if session = [] then [ascii "--list"] else [ascii "--prefix", session ++ ascii ":"]

/-- A run of the script, when the database file holds `stored`. -/
def extractUdpClips (c : CJson) (z : Zlib) (py : Python) (clock : Nat → Nat)
    (program db session stored : Bytes) (disk : Disk) (raw : Directory) : Option Directory :=
  match clipStoreStart [] clock (queryArgv program db session) with
  | .run args =>
      let answer := (clipStoreMain c z stored args).2
      if answer.status = 0 then extract py disk raw answer.stdout else none
  | .exit _ | .undefined => none

theorem clipStoreStart_queryArgv (clock : Nat → Nat) (program db session : Bytes) :
    clipStoreStart [] clock (queryArgv program db session) =
      .run ⟨db, ascii "3600", if session = [] then .list else .listPrefix (session ++ ascii ":"),
        clock⟩ := by
  have dbOption : classify clipStoreOptions (ascii "--db") = .options [] (some .db) := by decide
  have prefixOption : classify clipStoreOptions (ascii "--prefix") =
      .options [] (some .listPrefix) := by decide
  have listOption : classify clipStoreOptions (ascii "--list") =
      .options [.option .list []] none := by decide
  unfold clipStoreStart queryArgv
  split_ifs with all
  · rw [List.cons_append, List.tail_cons, List.cons_append, List.cons_append, List.nil_append,
      scan_argument dbOption, scan, listOption]
    rfl
  · rw [List.cons_append, List.tail_cons, List.cons_append, List.cons_append, List.nil_append,
      scan_argument dbOption, scan_argument prefixOption]
    rfl

section CopyRange

theorem copyLoop_eq {reads n : Nat} (enough : n ≤ reads) (rest : Bytes) :
    copyLoop reads rest n = if n ≤ rest.length then some (rest.take n) else none := by
  induction reads generalizing n rest with
  | zero =>
      obtain rfl := Nat.le_zero.mp enough
      rfl
  | succ reads ih =>
      cases n with
      | zero => rfl
      | succ n =>
          rw [copyLoop]
          have taken : (rest.take (min (1024 * 1024) (n + 1))).length =
              min (min (1024 * 1024) (n + 1)) rest.length := List.length_take
          by_cases empty : rest = []
          · subst empty
            simp
          · have some_bytes := List.length_pos_iff.mpr empty
            have nonempty : rest.take (min (1024 * 1024) (n + 1)) ≠ [] := by
              rw [← List.length_pos_iff, taken]
              omega
            rw [if_neg nonempty, ih (by omega), List.length_drop, taken]
            by_cases inside : n + 1 ≤ rest.length
            · rw [if_pos (by omega), if_pos inside, Option.map_some, Option.some.injEq]
              have size : min (min (1024 * 1024) (n + 1)) rest.length =
                  min (1024 * 1024) (n + 1) := by omega
              rw [size]
              have whole : n + 1 = min (1024 * 1024) (n + 1) +
                  (n + 1 - min (1024 * 1024) (n + 1)) := by omega
              conv_rhs => rw [whole, List.take_add]
            · rw [if_neg (by omega), if_neg inside, Option.map_none]

theorem copyRange_eq (source : Bytes) (offset length : Int) :
    copyRange source offset length =
      if 0 < length ∧ 0 ≤ offset ∧ offset + length ≤ source.length then
        some (slice source offset.toNat length.toNat)
      else none := by
  rw [copyRange]
  by_cases refused : length ≤ 0 ∨ offset < 0
  · rw [if_pos refused, if_neg (by omega)]
  · rw [if_neg refused, copyLoop_eq le_rfl, List.length_drop, slice]
    split_ifs <;> first | rfl | omega

end CopyRange

section Names

theorem digitsValue_indexText (index : Nat) : digitsValue (indexText index) = index := by
  have zeros (k : Nat) : digitsValue (List.replicate k 48 ++ decimalNat index) = index := by
    induction k with
    | zero => exact digitsValue_decimalNat index
    | succ k ih =>
        rw [List.replicate_succ, List.cons_append, digitsValue, List.foldl_cons]
        exact ih
  exact zeros _

theorem indexText_digits (index : Nat) : ∀ b ∈ indexText index, isDigit b = true := by
  intro b mem
  rcases List.mem_append.mp mem with zero | digit
  · rw [List.eq_of_mem_replicate zero]
    rfl
  · exact decimalNat_digits index b digit

variable {py : Python}

theorem rawName_index {i j : Nat} {row other : ClipRow}
    (same : rawName py i row = rawName py j other) : i = j := by
  have digits (index : Nat) (row : ClipRow) :
      (rawName py index row).takeWhile isDigit = indexText index := by
    have shape : rawName py index row = indexText index ++ underscore :: (safeName py row.session ++
        ascii "_" ++ safeName py row.tsText ++ ascii "_off" ++ decimal row.offset ++
        ascii "_len" ++ decimal row.length ++ ascii ".bin") := by
      simp [rawName, ascii, underscore]
    rw [shape, List.takeWhile_append_of_pos (indexText_digits index)]
    simp [isDigit, underscore]
  have texts := congrArg (List.takeWhile isDigit) same
  rw [digits, digits] at texts
  rw [← digitsValue_indexText i, texts, digitsValue_indexText]

theorem rawName_ne_orderedName (index : Nat) (row : ClipRow) (session : Bytes) :
    rawName py index row ≠ orderedName session := by
  intro same
  have suffix : ascii "_ordered.bin" = ascii "_ordered" ++ ascii ".bin" := by decide
  rw [rawName, orderedName, suffix, ← List.append_assoc] at same
  have fronts := List.append_cancel_right same
  have ends := congrArg List.getLast? fronts
  have ordered : (ascii "_ordered").getLast? = some 100 := by decide
  rw [List.getLast?_append_of_ne_nil _ (decimal_ne_nil row.length),
    List.getLast?_append_of_ne_nil _ (by decide), ordered] at ends
  rcases decimal_chars row.length 100 (List.mem_of_getLast? ends) with digit | minus
  · exact absurd digit (by decide)
  · exact absurd minus (by decide)

theorem orderedName_injective : Function.Injective orderedName :=
  fun _ _ same => List.append_cancel_right same

end Names

section Rows

variable {py : Python} {disk : Disk}

/-- The range of a row is a part of its file. -/
def Inside (files : Bytes → Option Bytes) (row : ClipRow) : Prop :=
  ∃ source, files row.path = some source ∧ 0 < row.length ∧ 0 ≤ row.offset ∧
    row.offset + row.length ≤ source.length

def cutOut (files : Bytes → Option Bytes) (row : ClipRow) : Bytes :=
  slice ((files row.path).getD []) row.offset.toNat row.length.toNat

def rawFiles (py : Python) (files : Bytes → Option Bytes) (index : Nat) (rows : List ClipRow) :
    Directory :=
  (rows.zipIdx index).map fun p => (rawName py p.2 p.1, cutOut files p.1)

def rawPaths (py : Python) (index : Nat) (rows : List ClipRow) : List (Bytes × Bytes) :=
  (rows.zipIdx index).map fun p => (safeName py p.1.session, rawName py p.2 p.1)

/-- The files of the rows can be written. -/
def Writable (py : Python) (writes : Bytes → Bool) (rows : List ClipRow) : Prop :=
  ∀ p ∈ rows.zipIdx 1, writes (rawName py p.2 p.1) = true ∧
    writes (orderedName (safeName py p.1.session)) = true

theorem extractRows_inside {rows : List ClipRow} {index : Nat}
    (inside : ∀ row ∈ rows, Inside disk.files row)
    (writable : ∀ p ∈ rows.zipIdx index, disk.writes (rawName py p.2 p.1) = true)
    (done : Extraction) :
    extractRows py disk index rows done =
      some ⟨done.raw ++ rawFiles py disk.files index rows,
        (rawPaths py index rows).foldl (fun groups p => addTo p.1 p.2 groups) done.combined⟩ := by
  induction rows generalizing index done with
  | nil => simp [extractRows, rawFiles, rawPaths]
  | cons row rows ih =>
      rw [List.forall_mem_cons] at inside
      rw [List.zipIdx_cons, List.forall_mem_cons] at writable
      obtain ⟨⟨source, found, part⟩, later⟩ := inside
      rw [extractRows, found]
      simp only [Option.bind_eq_bind, Option.bind_some, copyRange_eq, if_pos part, writable.1,
        if_true]
      rw [ih later writable.2]
      simp [rawFiles, rawPaths, cutOut, found]

theorem inside_of_extractRows {rows : List ClipRow} {index : Nat} {done out : Extraction}
    (extracted : extractRows py disk index rows done = some out) :
    (∀ row ∈ rows, Inside disk.files row) ∧
      ∀ p ∈ rows.zipIdx index, disk.writes (rawName py p.2 p.1) = true := by
  induction rows generalizing index done with
  | nil => simp
  | cons row rows ih =>
      obtain ⟨source, found, copied⟩ := Option.bind_eq_some_iff.mp extracted
      obtain ⟨bytes, part, rest⟩ := Option.bind_eq_some_iff.mp copied
      rw [copyRange_eq] at part
      split_ifs at part rest with inside written
      obtain ⟨later, writable⟩ := ih rest
      rw [List.zipIdx_cons]
      exact ⟨List.forall_mem_cons.mpr ⟨⟨source, found, inside⟩, later⟩,
        List.forall_mem_cons.mpr ⟨written, writable⟩⟩

theorem readFile_append (dir more : Directory) (name : Bytes) :
    readFile (dir ++ more) name = (readFile more name).or (readFile dir name) := by
  rw [readFile, lastWrite_append]
  simp only [readFile]
  cases lastWrite Prod.fst more name <;> rfl

theorem readFile_of_nodup {dir : Directory} (nodup : (dir.map Prod.fst).Nodup)
    {name bytes : Bytes} (mem : (name, bytes) ∈ dir) : readFile dir name = some bytes := by
  rw [readFile, (lastWrite_of_nodup nodup).mpr ⟨mem, rfl⟩]
  rfl

theorem readFile_eq_none {dir : Directory} {name : Bytes} :
    readFile dir name = none ↔ name ∉ dir.map Prod.fst := by
  rw [readFile, Option.map_eq_none_iff, lastWrite_eq_none]

theorem writeOrdered_eq {groups : List (Bytes × List Bytes)} {raw : Directory}
    {content : Bytes → Bytes} (writable : ∀ g ∈ groups, disk.writes (orderedName g.1) = true)
    (held : ∀ g ∈ groups, ∀ path ∈ g.2, readFile raw path = some (content path) ∧
      ∀ session, path ≠ orderedName session) :
    writeOrdered disk groups raw =
      some (raw ++ groups.map fun g => (orderedName g.1, g.2.flatMap content)) := by
  induction groups generalizing raw with
  | nil => simp [writeOrdered]
  | cons g groups ih =>
      obtain ⟨session, paths⟩ := g
      rw [List.forall_mem_cons] at held writable
      obtain ⟨here, later⟩ := held
      have parts : paths.mapM (readFile raw) = some (paths.map content) := by
        clear ih later writable
        induction paths with
        | nil => rfl
        | cons path paths ih =>
            rw [List.forall_mem_cons] at here
            rw [List.mapM_cons, here.1.1, ih here.2]
            rfl
      have kept : ∀ g ∈ groups, ∀ path ∈ g.2,
          readFile (raw ++ [(orderedName session, (paths.map content).flatten)]) path =
            some (content path) ∧ ∀ session, path ≠ orderedName session := by
        intro g mem path inside
        obtain ⟨found, apart⟩ := later g mem path inside
        have absent :
            readFile [(orderedName session, (paths.map content).flatten)] path = none := by
          rw [readFile_eq_none]
          simpa using apart session
        rw [readFile_append, absent, Option.none_or]
        exact ⟨found, apart⟩
      rw [writeOrdered, if_pos writable.1, parts, Option.bind_eq_bind, Option.bind_some,
        ih writable.2 kept]
      simp [List.flatMap_def]

theorem writes_of_writeOrdered {groups : List (Bytes × List Bytes)} {raw dir : Directory}
    (wrote : writeOrdered disk groups raw = some dir) :
    ∀ g ∈ groups, disk.writes (orderedName g.1) = true := by
  induction groups generalizing raw with
  | nil => simp
  | cons g groups ih =>
      rw [writeOrdered] at wrote
      split_ifs at wrote with written
      obtain ⟨parts, -, rest⟩ := Option.bind_eq_some_iff.mp wrote
      exact List.forall_mem_cons.mpr ⟨written, ih rest⟩

/-- The ordered files: for every session, the bytes of its rows in order. -/
def orderedFiles (py : Python) (files : Bytes → Option Bytes) (rows : List ClipRow) : Directory :=
  (distinct (rows.map fun row => safeName py row.session)).map fun session =>
    (orderedName session,
      (rows.filter fun row => safeName py row.session = session).flatMap (cutOut files))

theorem rawFiles_nodup (py : Python) (files : Bytes → Option Bytes) (index : Nat)
    (rows : List ClipRow) : ((rawFiles py files index rows).map Prod.fst).Nodup := by
  have indices : ((rows.zipIdx index).map Prod.snd).Nodup := by
    rw [List.zipIdx_map_snd]
    exact List.nodup_range'
  rw [rawFiles, List.map_map]
  apply List.pairwise_map.mpr
  apply (List.pairwise_map.mp indices).imp
  intro p q apart same
  exact apart (rawName_index same)

theorem readFile_rawFiles {files : Bytes → Option Bytes} {index : Nat} {rows : List ClipRow}
    {p : ClipRow × Nat} (mem : p ∈ rows.zipIdx index) :
    readFile (rawFiles py files index rows) (rawName py p.2 p.1) = some (cutOut files p.1) :=
  readFile_of_nodup (rawFiles_nodup py files index rows) (List.mem_map.mpr ⟨p, mem, rfl⟩)

theorem valuesOf_rawPaths (index : Nat) (rows : List ClipRow) (session : Bytes) :
    valuesOf (rawPaths py index rows) session =
      ((rows.zipIdx index).filter fun p => safeName py p.1.session = session).map
        fun p => rawName py p.2 p.1 := by
  rw [valuesOf, rawPaths, List.filter_map, List.map_map]
  rfl

theorem groups_eq (py : Python) (rows : List ClipRow) :
    (rawPaths py 1 rows).foldl (fun groups p => addTo p.1 p.2 groups) [] =
      (distinct (rows.map fun row => safeName py row.session)).map fun session =>
        (session, valuesOf (rawPaths py 1 rows) session) := by
  have sessions : (rawPaths py 1 rows).map Prod.fst =
      rows.map fun row => safeName py row.session := by
    rw [rawPaths, List.map_map]
    conv_rhs => rw [← List.zipIdx_map_fst 1 rows, List.map_map]
    rfl
  rw [← sessions]
  exact group_eq (rawPaths py 1 rows)

theorem rows_of_extract {raw dir : Directory} {stdout : Bytes}
    (extracted : extract py disk raw stdout = some dir) :
    ∃ rows, queryClipRecords py stdout = some rows ∧ rows ≠ [] ∧
      (∀ row ∈ rows, Inside disk.files row) ∧ Writable py disk.writes rows := by
  obtain ⟨rows, read, rest⟩ := Option.bind_eq_some_iff.mp extracted
  split_ifs at rest with empty
  obtain ⟨done, copied, wrote⟩ := Option.bind_eq_some_iff.mp rest
  obtain ⟨inside, named⟩ := inside_of_extractRows copied
  rw [extractRows_inside inside named, groups_eq] at copied
  cases copied
  have ordered := writes_of_writeOrdered wrote
  refine ⟨rows, read, empty, inside, fun p mem => ⟨named p mem, ?_⟩⟩
  apply ordered (safeName py p.1.session, _)
  apply List.mem_map_of_mem
  rw [mem_distinct]
  exact List.mem_map_of_mem (List.fst_mem_of_mem_zipIdx mem)

/-- What a run writes when all ranges lie in their files. -/
theorem extract_inside {raw : Directory} {stdout : Bytes} {rows : List ClipRow}
    (read : queryClipRecords py stdout = some rows) (nonempty : rows ≠ [])
    (inside : ∀ row ∈ rows, Inside disk.files row) (writable : Writable py disk.writes rows) :
    extract py disk raw stdout =
      some (raw ++ rawFiles py disk.files 1 rows ++ orderedFiles py disk.files rows) := by
  have content : ∀ p ∈ rows.zipIdx 1,
      readFile (raw ++ rawFiles py disk.files 1 rows) (rawName py p.2 p.1) =
        some (cutOut disk.files p.1) := by
    intro p mem
    rw [readFile_append, readFile_rawFiles mem, Option.some_or]
  rw [extract, read, Option.bind_eq_bind, Option.bind_some, if_neg nonempty,
    extractRows_inside inside fun p mem => (writable p mem).1, Option.bind_eq_bind,
    Option.bind_some]
  dsimp only
  rw [groups_eq, @writeOrdered_eq _ _ _ fun path =>
    (readFile (raw ++ rawFiles py disk.files 1 rows) path).getD []]
  · rw [orderedFiles, List.map_map, Option.some.injEq]
    congr 1
    apply List.map_congr_left
    intro session _
    rw [Function.comp_apply, valuesOf_rawPaths, List.flatMap_map]
    have kept : rows.filter (fun row => safeName py row.session = session) =
        ((rows.zipIdx 1).filter fun p => safeName py p.1.session = session).map Prod.fst := by
      conv_lhs => rw [← List.zipIdx_map_fst 1 rows, List.filter_map]
      rfl
    rw [kept, List.flatMap_map]
    congr 1
    apply List.flatMap_congr
    intro p mem
    rw [content p (List.mem_of_mem_filter mem)]
    rfl
  · intro g mem
    obtain ⟨session, here, rfl⟩ := List.mem_map.mp mem
    obtain ⟨row, there, rfl⟩ := List.mem_map.mp (mem_distinct.mp here)
    obtain ⟨i, at_i⟩ := List.mem_iff_getElem?.mp there
    exact (writable (row, i + 1)
      (List.mem_zipIdx_iff_le_and_getElem?_sub.mpr ⟨by simp, by simpa using at_i⟩)).2
  · intro g mem path inGroup
    obtain ⟨session, -, rfl⟩ := List.mem_map.mp mem
    rw [valuesOf_rawPaths] at inGroup
    obtain ⟨p, here, rfl⟩ := List.mem_map.mp inGroup
    rw [content p (List.mem_of_mem_filter here)]
    exact ⟨rfl, rawName_ne_orderedName p.2 p.1⟩

theorem readFile_orderedFiles {files : Bytes → Option Bytes} {rows : List ClipRow} {row : ClipRow}
    (mem : row ∈ rows) :
    readFile (orderedFiles py files rows) (orderedName (safeName py row.session)) =
      some ((rows.filter fun other => safeName py other.session =
        safeName py row.session).flatMap (cutOut files)) := by
  have nodup : ((orderedFiles py files rows).map Prod.fst).Nodup := by
    rw [orderedFiles, List.map_map]
    exact (distinct_nodup _).map orderedName_injective
  apply readFile_of_nodup nodup
  exact List.mem_map.mpr ⟨_, mem_distinct.mpr (List.mem_map.mpr ⟨row, mem, rfl⟩), rfl⟩

theorem mem_orderedFiles {files : Bytes → Option Bytes} {rows : List ClipRow} {name : Bytes}
    (mem : name ∈ (orderedFiles py files rows).map Prod.fst) :
    ∃ row ∈ rows, name = orderedName (safeName py row.session) := by
  rw [orderedFiles, List.map_map] at mem
  obtain ⟨session, here, rfl⟩ := List.mem_map.mp mem
  obtain ⟨row, there, rfl⟩ := List.mem_map.mp (mem_distinct.mp here)
  exact ⟨row, there, rfl⟩

theorem mem_rawFiles {files : Bytes → Option Bytes} {rows : List ClipRow} {name : Bytes}
    (mem : name ∈ (rawFiles py files 1 rows).map Prod.fst) :
    ∃ i row, rows[i]? = some row ∧ name = rawName py (i + 1) row := by
  rw [rawFiles, List.map_map] at mem
  obtain ⟨p, here, rfl⟩ := List.mem_map.mp mem
  obtain ⟨above, there⟩ := List.mem_zipIdx_iff_le_and_getElem?_sub.mp here
  refine ⟨p.2 - 1, p.1, there, ?_⟩
  rw [Nat.sub_add_cancel above]
  rfl

/-- The files that are written, and those that are kept. -/
structure Extracts (py : Python) (disk : Disk) (raw : Directory) (rows : List ClipRow)
    (dir : Directory) : Prop where
  ordered : ∀ row ∈ rows, readFile dir (orderedName (safeName py row.session)) =
    some ((rows.filter fun other => safeName py other.session =
      safeName py row.session).flatMap (cutOut disk.files))
  rawFile : ∀ i row, rows[i]? = some row →
    readFile dir (rawName py (i + 1) row) = some (cutOut disk.files row)
  kept : ∀ name, (∀ i row, rows[i]? = some row → name ≠ rawName py (i + 1) row ∧
    name ≠ orderedName (safeName py row.session)) → readFile dir name = readFile raw name

theorem extracts_rows (disk : Disk) (raw : Directory) (rows : List ClipRow) :
    Extracts py disk raw rows
      (raw ++ rawFiles py disk.files 1 rows ++ orderedFiles py disk.files rows) where
  ordered row mem := by rw [readFile_append, readFile_orderedFiles mem, Option.some_or]
  rawFile i row there := by
    have absent : readFile (orderedFiles py disk.files rows) (rawName py (i + 1) row) = none := by
      rw [readFile_eq_none]
      intro mem
      obtain ⟨other, -, same⟩ := mem_orderedFiles mem
      exact rawName_ne_orderedName (i + 1) row _ same
    have placed : (row, i + 1) ∈ rows.zipIdx 1 :=
      List.mem_zipIdx_iff_le_and_getElem?_sub.mpr ⟨by simp, by simpa using there⟩
    rw [readFile_append, absent, Option.none_or, readFile_append, readFile_rawFiles placed,
      Option.some_or]
  kept name apart := by
    have noOrdered : readFile (orderedFiles py disk.files rows) name = none := by
      rw [readFile_eq_none]
      intro mem
      obtain ⟨row, there, same⟩ := mem_orderedFiles mem
      obtain ⟨i, at_i⟩ := List.mem_iff_getElem?.mp there
      exact (apart i row at_i).2 same
    have noRaw : readFile (rawFiles py disk.files 1 rows) name = none := by
      rw [readFile_eq_none]
      intro mem
      obtain ⟨i, row, at_i, same⟩ := mem_rawFiles mem
      exact (apart i row at_i).1 same
    rw [readFile_append, noOrdered, Option.none_or, readFile_append, noRaw, Option.none_or]

end Rows

/-- What a query has printed, where it is ASCII text. -/
structure AsciiText where
  bytes : Bytes
  ascii : ∀ b ∈ bytes, b < 128

def twoRows : Bytes :=
  let clip := ascii "\t\x7b\"type\":\"clip\",\"session_id\":\"cam\",\"path\":\"v\",\"offset\":"
  ascii "cam:1" ++ clip ++ ascii "2,\"length\":1\x7d\n" ++
    ascii "cam:0" ++ clip ++ ascii "0,\"length\":2\x7d\n"

example : (extract plainPython ⟨fun _ => some [1, 2, 3], fun _ => true⟩ [] twoRows).bind
    (readFile · (orderedName (ascii "cam"))) = some [1, 2, 3] := by decide +kernel

end StreamDataPipeline.UdpStream.Extractor
