/- The dispatcher and the applets read the numeric options alike. -/

import StreamDataPipeline.ClipStore.Options
import StreamDataPipeline.PipelineDispatcher.Config
import StreamDataPipeline.StreamMerge.Options

set_option autoImplicit false
set_option relaxedAutoImplicit false

namespace StreamDataPipeline.PipelineDispatcher.OptionAgreement

open Foundations.ByteString Foundations.Decimal Foundations.Doubles Foundations.Getopt Config
open ClipStore.Main (parseTtl)
open ClipStore.Options (clipStoreStart clipStoreOptions)
open StreamMerge.Options (Atof wholeAtof atofMs atofMs_exact_iff atofMs_nonpos streamMergeStart
  streamMergeOptions StreamMergeArgs)

/-- `merge_argv` of `pd_pipeline_run`. -/
def mergeArgv (cfg : PdConfig) : List Bytes :=
  [cfg.binStreamMerge, ascii "--clip-secs", cfg.clipSecs, ascii "--idle-secs", cfg.idleSecs,
    cfg.sessionId, cfg.srcDir]

/-- `store_argv` of `pd_pipeline_run`. -/
def storeArgv (cfg : PdConfig) : List Bytes :=
  [cfg.binClipStore, ascii "--db", cfg.dbPath, ascii "--ttl", cfg.ttl]

/-- The number that the dispatcher reads in a string. -/
def uintValue (value : Bytes) : Nat := ((strtoul value).map (·.value)).getD 0

/-- clip_store accepts the ttl and takes it for the number that the dispatcher read. -/
def TtlAgrees (cfg : PdConfig) : Prop :=
  ∀ stdin clock, ∃ args, clipStoreStart stdin clock (storeArgv cfg) = .run args ∧
    parseTtl args.ttlArg = some (uintValue cfg.ttl : Int)

/-- stream_merge runs, with the numbers that the dispatcher read in milliseconds; they are
positive, and representable in int64. -/
def SecsAgree (atof : Atof) (cfg : PdConfig) : Prop :=
  ∃ args, streamMergeStart atof (mergeArgv cfg) = .run args ∧
    args.windows.clipMs = 1000 * uintValue cfg.clipSecs ∧
    args.windows.idleMs = 1000 * uintValue cfg.idleSecs ∧
    0 < args.windows.clipMs ∧ IsLong args.windows.clipMs ∧
    0 < args.windows.idleMs ∧ IsLong args.windows.idleMs

/-- The string spells an integer from 0 to the bound. -/
def SpellsWithin (value : Bytes) (bound : Int) : Prop :=
  ∃ v, spelled value = some v ∧ 0 ≤ v ∧ v ≤ bound

/-- The string spells a number of seconds whose milliseconds fit and are a double. -/
def SpellsSecs (value : Bytes) : Prop :=
  ∃ v, spelled value = some v ∧ (0 ≤ v ∧ v ≤ longMax / 1000) ∧
    IsDouble ((v * 1000 : Int) : ℚ)

/-- The numbers are spelled without a sign that counts, and fit where they are read; the
operands of stream_merge do not look like options. -/
structure OptionsFit (cfg : PdConfig) : Prop where
  ttl : SpellsWithin cfg.ttl longMax
  clipSecs : SpellsSecs cfg.clipSecs
  idleSecs : SpellsSecs cfg.idleSecs
  sessionId : isOperand cfg.sessionId = true
  srcDir : isOperand cfg.srcDir = true

private theorem uintValue_of_spelled {value : Bytes} {v : Int} (h : spelled value = some v)
    (inside : v.natAbs ≤ ulongMax) : (uintValue value : Int) = v % 2 ^ 64 := by
  have scanned := spelled_eq_some.mp h
  have nonneg : 0 ≤ v % 2 ^ 64 := Int.emod_nonneg v (by decide)
  simp only [uintValue, strtoul, scanned, Option.map_some, inside, if_true, Option.getD_some]
  omega

private theorem wrapped_eq_iff {v : Int} (inside : v.natAbs ≤ ulongMax) :
    v % 2 ^ 64 = v ↔ 0 ≤ v := by
  unfold ulongMax at inside
  omega

private theorem clipStoreStart_storeArgv (cfg : PdConfig) (stdin : Bytes) (clock : Nat → Nat) :
    clipStoreStart stdin clock (storeArgv cfg) =
      .run ⟨cfg.dbPath, cfg.ttl, .append stdin, clock⟩ := by
  have db : classify clipStoreOptions (ascii "--db") = .options [] (some .db) := by decide
  have ttl : classify clipStoreOptions (ascii "--ttl") = .options [] (some .ttl) := by decide
  unfold clipStoreStart storeArgv
  simp only [List.tail_cons, scan_argument db, scan_argument ttl]
  rfl

private theorem scan_mergeArgv (cfg : PdConfig) :
    scan streamMergeOptions none (mergeArgv cfg).tail =
      let operands := scan streamMergeOptions none [cfg.sessionId, cfg.srcDir]
      ⟨.option .clipSecs cfg.clipSecs :: .option .idleSecs cfg.idleSecs :: operands.found,
        operands.operands⟩ := by
  have clip : classify streamMergeOptions (ascii "--clip-secs") =
      .options [] (some .clipSecs) := by decide
  have idle : classify streamMergeOptions (ascii "--idle-secs") =
      .options [] (some .idleSecs) := by decide
  unfold mergeArgv
  simp only [List.tail_cons, scan_argument clip, scan_argument idle]

theorem ttlAgrees_iff {cfg : PdConfig} (valid : validUintString cfg.ttl true = true) :
    TtlAgrees cfg ↔ SpellsWithin cfg.ttl longMax := by
  obtain ⟨v, spells, inside, -⟩ := validUintString_iff.mp valid
  have value := uintValue_of_spelled spells inside
  have parsed : parseTtl cfg.ttl = if clampLong v < 0 then none else some (clampLong v) := by
    simp [parseTtl, strtolWhole_of_spelled spells]
  constructor
  · intro agrees
    obtain ⟨args, started, same⟩ := agrees [] (fun _ => 0)
    rw [clipStoreStart_storeArgv] at started
    cases started
    rw [parsed, value] at same
    refine ⟨v, spells, ?_⟩
    split_ifs at same with negative
    have equal := Option.some.inj same
    unfold clampLong longMin longMax at *
    unfold ulongMax at inside
    omega
  · rintro ⟨w, spellsW, nonneg, bound⟩ stdin clock
    obtain rfl : v = w := Option.some.inj (spells.symm.trans spellsW)
    refine ⟨_, clipStoreStart_storeArgv cfg stdin clock, ?_⟩
    have kept : clampLong v = v := by
      unfold clampLong longMin
      omega
    rw [parsed, kept, if_neg (by omega), value, (wrapped_eq_iff inside).mpr nonneg]

private theorem streamMergeStart_mergeArgv {atof : Atof} {cfg : PdConfig}
    {args : StreamMergeArgs} :
    streamMergeStart atof (mergeArgv cfg) = .run args ↔
      (isOperand cfg.sessionId = true ∧ isOperand cfg.srcDir = true) ∧
      atofMs atof cfg.clipSecs = .run args.windows.clipMs ∧
      atofMs atof cfg.idleSecs = .run args.windows.idleMs ∧
      args.session = cfg.sessionId ∧ args.src = cfg.srcDir := by
  constructor
  · intro started
    unfold streamMergeStart at started
    rw [scan_mergeArgv] at started
    obtain ⟨windows, looped, matched⟩ := Start.bind_eq_run started
    have plain : [cfg.sessionId, cfg.srcDir].all isOperand = true := by
      by_contra option
      have missing := scan_operands_lt streamMergeOptions (eq_false_of_ne_true option)
      simp only at matched
      split at matched
      · rename_i enough
        rw [enough] at missing
        simp at missing
      · cases matched
    rw [scan_operands plain] at looped matched
    obtain ⟨first, clipRead, looped⟩ := Start.bind_eq_run looped
    obtain ⟨second, idleRead, looped⟩ := Start.bind_eq_run looped
    obtain ⟨clipMs, clip, clipRead⟩ := Start.bind_eq_run clipRead
    obtain ⟨idleMs, idle, idleRead⟩ := Start.bind_eq_run idleRead
    cases clipRead
    cases idleRead
    cases looped
    cases matched
    simpa [clip, idle] using plain
  · rintro ⟨⟨session, src⟩, clip, idle, sameSession, sameSrc⟩
    have plain : [cfg.sessionId, cfg.srcDir].all isOperand = true := by
      simp [session, src]
    obtain ⟨⟨clipMs, idleMs⟩, argSession, argSrc⟩ := args
    subst sameSession sameSrc
    unfold streamMergeStart
    rw [scan_mergeArgv, scan_operands plain]
    simp only [optionLoop, StreamMerge.Options.handleOption, clip, idle, Start.bind]

private theorem secs_agree_iff (atof : Atof) {secs : Bytes}
    (valid : validUintString secs false = true) :
    (∃ ms, atofMs atof secs = .run ms ∧ ms = 1000 * uintValue secs ∧ 0 < ms ∧ IsLong ms) ↔
      SpellsSecs secs := by
  obtain ⟨v, spells, inside, positive⟩ := validUintString_iff.mp valid
  have value := uintValue_of_spelled spells inside
  have read := atofMs_exact_iff atof spells
  constructor
  · rintro ⟨ms, ran, same, above, -⟩
    have plain : 0 < v := by
      by_contra negative
      exact absurd (atofMs_nonpos atof spells (not_lt.mp negative) ran) (not_le.mpr above)
    have product : ms = v * 1000 := by
      rw [same, value, (wrapped_eq_iff inside).mpr plain.le, mul_comm]
    obtain ⟨long, double⟩ := read.mp (product ▸ ran)
    refine ⟨v, spells, ⟨plain.le, ?_⟩, double⟩
    unfold IsLong longMax at *
    omega
  · rintro ⟨w, spellsW, ⟨nonneg, bound⟩, double⟩
    obtain rfl : v = w := Option.some.inj (spells.symm.trans spellsW)
    have plain := (wrapped_eq_iff inside).mpr nonneg
    have above : 0 < v := by
      rcases positive with zero | positive
      · cases zero
      · omega
    have long : IsLong (v * 1000) := by
      unfold IsLong longMin longMax at *
      omega
    refine ⟨v * 1000, read.mpr ⟨long, double⟩, ?_, ?_, long⟩
    · rw [value, plain, mul_comm]
    · omega

theorem secsAgree_iff (atof : Atof) {cfg : PdConfig}
    (validClip : validUintString cfg.clipSecs false = true)
    (validIdle : validUintString cfg.idleSecs false = true) :
    SecsAgree atof cfg ↔
      (SpellsSecs cfg.clipSecs ∧ SpellsSecs cfg.idleSecs) ∧
      isOperand cfg.sessionId = true ∧ isOperand cfg.srcDir = true := by
  rw [← secs_agree_iff atof validClip, ← secs_agree_iff atof validIdle]
  constructor
  · rintro ⟨args, started, clipSame, idleSame, clipAbove, clipLong, idleAbove, idleLong⟩
    obtain ⟨plain, clip, idle, -, -⟩ := streamMergeStart_mergeArgv.mp started
    exact ⟨⟨⟨_, clip, clipSame, clipAbove, clipLong⟩, ⟨_, idle, idleSame, idleAbove, idleLong⟩⟩,
      plain⟩
  · rintro ⟨⟨⟨clipMs, clip, clipFits⟩, ⟨idleMs, idle, idleFits⟩⟩, plain⟩
    have started : streamMergeStart atof (mergeArgv cfg) =
        .run ⟨⟨clipMs, idleMs⟩, cfg.sessionId, cfg.srcDir⟩ :=
      streamMergeStart_mergeArgv.mpr ⟨plain, clip, idle, rfl, rfl⟩
    obtain ⟨clipSame, clipAbove, clipLong⟩ := clipFits
    obtain ⟨idleSame, idleAbove, idleLong⟩ := idleFits
    exact ⟨_, started, clipSame, idleSame, clipAbove, clipLong, idleAbove, idleLong⟩

/-- The applets read the options of an accepted configuration as the dispatcher did iff the
options fit. -/
theorem options_agree_iff (atof : Atof) (files : Files) (cfg : PdConfig)
    (valid : pdConfigValidate files cfg = true) :
    (TtlAgrees cfg ∧ SecsAgree atof cfg) ↔ OptionsFit cfg := by
  simp only [pdConfigValidate, Bool.and_eq_true] at valid
  obtain ⟨⟨⟨⟨-, validTtl⟩, validClip⟩, validIdle⟩, -⟩ := valid
  rw [ttlAgrees_iff validTtl, secsAgree_iff atof validClip validIdle]
  constructor
  · rintro ⟨ttl, ⟨clip, idle⟩, session, src⟩
    exact ⟨ttl, clip, idle, session, src⟩
  · rintro ⟨ttl, clip, idle, session, src⟩
    exact ⟨ttl, ⟨clip, idle⟩, session, src⟩

/-- A file system in which every path is a directory and a program. -/
def anyFiles : Files := ⟨fun _ => true, fun _ => true⟩

/-- The defaults, with the ttl given. -/
def defaultConfig (ttl : Bytes) : PdConfig where
  sessionId := ascii "cam"
  srcDir := ascii "/data"
  dbPath := ascii "/data/clips.db"
  ttl := ttl
  clipSecs := defaultClipSecs
  idleSecs := defaultIdleSecs
  filter := defaultFilter
  binStreamMerge := ascii "/bin/stream_merge"
  binLogParse := ascii "/bin/log_parse"
  binClipStore := ascii "/bin/clip_store"

theorem options_agree_by_default :
    pdConfigValidate anyFiles (defaultConfig defaultTtlSecs) = true ∧
      TtlAgrees (defaultConfig defaultTtlSecs) ∧
      SecsAgree wholeAtof (defaultConfig defaultTtlSecs) := by
  have valid : pdConfigValidate anyFiles (defaultConfig defaultTtlSecs) = true := by decide
  refine ⟨valid, (options_agree_iff wholeAtof anyFiles _ valid).mpr ⟨?_, ?_, ?_, ?_, ?_⟩⟩
  · exact ⟨300, by decide, by decide, by decide⟩
  · exact ⟨5, by decide, by decide, isDouble_intCast 5000 (by decide)⟩
  · exact ⟨2, by decide, by decide, isDouble_intCast 2000 (by decide)⟩
  · decide
  · decide

/-- The dispatcher accepts a negative ttl on its command line, which clip_store rejects. -/
theorem negative_ttl_accepted_by_dispatcher :
    pdConfigParse (some (ascii "/bin/pipeline_dispatcher"))
        [ascii "pipeline_dispatcher", ascii "--ttl", ascii "-1", ascii "cam", ascii "/data",
          ascii "/data/clips.db"] = .run (defaultConfig (ascii "-1")) ∧
      pdConfigValidate anyFiles (defaultConfig (ascii "-1")) = true ∧
      (∀ clock, clipStoreStart [] clock (storeArgv (defaultConfig (ascii "-1"))) =
        .run ⟨ascii "/data/clips.db", ascii "-1", .append [], clock⟩) ∧
      parseTtl (ascii "-1") = none ∧ ¬ TtlAgrees (defaultConfig (ascii "-1")) := by
  refine ⟨by decide, by decide, fun clock => clipStoreStart_storeArgv _ [] clock, by decide, ?_⟩
  intro agrees
  obtain ⟨args, started, same⟩ := agrees [] (fun _ => 0)
  rw [clipStoreStart_storeArgv] at started
  cases started
  have rejected : parseTtl (ascii "-1") = none := by decide
  have accepted : parseTtl (ascii "-1") = some (uintValue (ascii "-1") : Int) := same
  rw [rejected] at accepted
  cases accepted

end StreamDataPipeline.PipelineDispatcher.OptionAgreement
