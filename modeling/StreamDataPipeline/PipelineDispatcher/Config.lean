/- The configuration of the dispatcher (pd_config.c). -/

import StreamDataPipeline.Foundations.Decimal
import StreamDataPipeline.Foundations.Getopt
import StreamDataPipeline.Lib.Libpipeline

set_option autoImplicit false
set_option relaxedAutoImplicit false

namespace StreamDataPipeline.PipelineDispatcher.Config

open Foundations.ByteString Foundations.Decimal Foundations.Getopt Lib.Libpipeline

structure PdConfig where
  sessionId : Bytes
  srcDir : Bytes
  dbPath : Bytes
  ttl : Bytes
  clipSecs : Bytes
  idleSecs : Bytes
  filter : Bytes
  binStreamMerge : Bytes
  binLogParse : Bytes
  binClipStore : Bytes
  deriving DecidableEq

def defaultTtlSecs : Bytes := ascii "300"
def defaultClipSecs : Bytes := ascii "5"
def defaultIdleSecs : Bytes := ascii "2"
def defaultFilter : Bytes := ascii "type=clip"

/-- The part of a path before its last slash. -/
def dirPart (path : Bytes) : Option Bytes :=
  if 47 ∈ path then some ((path.reverse.dropWhile (· ≠ 47)).tail.reverse) else none

/-- `exe` is what the link `/proc/self/exe` holds, if it can be read. -/
def siblingPath (exe : Option Bytes) (argv0 name : Bytes) : Option Bytes :=
  match dirPart (exe.getD argv0) with
  | none =>
      let path := ascii "./" ++ name
      if path.length < pathMax then some path else none
  | some dir =>
      if pathMax < dir.length + 1 + name.length + 1 then none
      else some (dir ++ ascii "/" ++ name)

/-- Return true only when value is a base-10 integer and satisfies `allowZero`. -/
def validUintString (value : Bytes) (allowZero : Bool) : Bool :=
  if value = [] then false
  else match strtoul value with
    | none => false
    | some n => if n.outOfRange || n.rest ≠ [] then false else allowZero || 0 < n.value

inductive PdOption
  | ttl | clipSecs | idleSecs | filter | help
  deriving DecidableEq

def pdOptions : Options PdOption where
  short := [⟨104, false, .help⟩]
  long := [
    ⟨ascii "ttl", true, .ttl⟩,
    ⟨ascii "clip-secs", true, .clipSecs⟩,
    ⟨ascii "idle-secs", true, .idleSecs⟩,
    ⟨ascii "filter", true, .filter⟩,
    ⟨ascii "help", false, .help⟩]

/-- The options alone, with their defaults. -/
structure PdOptionArgs where
  ttl : Bytes := defaultTtlSecs
  clipSecs : Bytes := defaultClipSecs
  idleSecs : Bytes := defaultIdleSecs
  filter : Bytes := defaultFilter
  deriving DecidableEq

def handleOption (read : PdOptionArgs) : Found PdOption → Start PdOptionArgs
  | .option .ttl optarg => .run { read with ttl := optarg }
  | .option .clipSecs optarg => .run { read with clipSecs := optarg }
  | .option .idleSecs optarg => .run { read with idleSecs := optarg }
  | .option .filter optarg => .run { read with filter := optarg }
  | .option .help _ => .exit 1
  | .mistake => .exit (-1)

/-- The return value is 1 when help was printed and -1 on invalid usage. -/
def pdConfigParse (exe : Option Bytes) (argv : List Bytes) : Start PdConfig :=
  let scanned := scan pdOptions none argv.tail
  let argv0 := argv.headD []
  (optionLoop handleOption {} scanned.found).bind fun read =>
    match scanned.operands, siblingPath exe argv0 (ascii "stream_merge"),
      siblingPath exe argv0 (ascii "log_parse"), siblingPath exe argv0 (ascii "clip_store") with
    | [sessionId, srcDir, dbPath], some binStreamMerge, some binLogParse, some binClipStore =>
        .run ⟨sessionId, srcDir, dbPath, read.ttl, read.clipSecs, read.idleSecs, read.filter,
          binStreamMerge, binLogParse, binClipStore⟩
    | _, _, _, _ => .exit (-1)

/-- What `stat` and `access` say of a path. -/
structure Files where
  isDirectory : Bytes → Bool
  isExecutable : Bytes → Bool

/-- True is the return value 0. -/
def pdConfigValidate (files : Files) (cfg : PdConfig) : Bool :=
  cfg.sessionId ≠ [] && cfg.srcDir ≠ [] && cfg.dbPath ≠ [] &&
  files.isDirectory cfg.srcDir &&
  validUintString cfg.ttl true &&
  validUintString cfg.clipSecs false &&
  validUintString cfg.idleSecs false &&
  (files.isExecutable cfg.binStreamMerge && files.isExecutable cfg.binLogParse &&
    files.isExecutable cfg.binClipStore)

/-- A string is accepted iff it spells an integer that `unsigned long` holds up to its sign,
and the reading is positive unless zero is allowed. -/
theorem validUintString_iff {value : Bytes} {allowZero : Bool} :
    validUintString value allowZero = true ↔
      ∃ v, spelled value = some v ∧ v.natAbs ≤ ulongMax ∧
        (allowZero = true ∨ 0 < (v % 2 ^ 64).toNat) := by
  constructor
  · intro valid
    unfold validUintString at valid
    split_ifs at valid with empty
    cases scanned : scanInteger value with
    | none => simp [strtoul, scanned] at valid
    | some read =>
        obtain ⟨v, rest⟩ := read
        by_cases inside : v.natAbs ≤ ulongMax
        · simp only [strtoul, scanned, Option.map_some, inside, if_true, Bool.false_or,
            decide_eq_true_eq, ne_eq] at valid
          split_ifs at valid with more
          obtain rfl : rest = [] := by simpa using more
          exact ⟨v, spelled_eq_some.mpr scanned, inside, by simpa using valid⟩
        · simp [strtoul, scanned, inside] at valid
  · rintro ⟨v, spells, inside, positive⟩
    have scanned := spelled_eq_some.mp spells
    have nonempty : value ≠ [] := by
      rintro rfl
      have nothing : scanInteger [] = none := rfl
      rw [nothing] at scanned
      cases scanned
    simpa [validUintString, nonempty, strtoul, scanned, inside] using positive

/-- Every default passes its own check. -/
theorem defaults_valid :
    validUintString defaultTtlSecs true = true ∧ validUintString defaultClipSecs false = true ∧
      validUintString defaultIdleSecs false = true := by
  decide

end StreamDataPipeline.PipelineDispatcher.Config
