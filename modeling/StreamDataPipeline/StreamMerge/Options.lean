/- The command line of stream_merge (stream_merge.c). -/

import StreamDataPipeline.Foundations.Decimal
import StreamDataPipeline.Foundations.Doubles
import StreamDataPipeline.Foundations.Getopt

/-!
`atof` is a parameter: it is exact on the texts that spell an integer, and of its values
on other texts nothing is known here. The product with 1000 is rounded to a double.
-/

set_option autoImplicit false
set_option relaxedAutoImplicit false

namespace StreamDataPipeline.StreamMerge.Options

open Foundations.ByteString Foundations.Decimal Foundations.Doubles Foundations.Getopt

structure Atof where
  value : Bytes → ℚ
  exact : ∀ {s : Bytes} {v : Int}, spelled s = some v → value s = v

/-- The reading of whole numbers alone. -/
def wholeAtof : Atof where
  value s := ((spelled s).getD 0 : Int)
  exact := by
    intro s v h
    rw [h, Option.getD_some]

/-- The conversion to `int64_t` drops the fraction; out of range it is not defined. -/
def toInt64 (q : ℚ) : Option Int :=
  let truncated := if 0 ≤ q then ⌊q⌋ else ⌈q⌉
  if IsLong truncated then some truncated else none

def defaultClipMs : Int := 5000
def defaultIdleMs : Int := 2000

inductive StreamMergeOption
  | clipSecs | idleSecs | help
  deriving DecidableEq

def streamMergeOptions : Options StreamMergeOption where
  short := [⟨104, false, .help⟩]
  long := [
    ⟨ascii "clip-secs", true, .clipSecs⟩,
    ⟨ascii "idle-secs", true, .idleSecs⟩,
    ⟨ascii "help", false, .help⟩]

structure Windows where
  clipMs : Int
  idleMs : Int
  deriving DecidableEq

/-- `(int64_t)(atof(optarg) * 1000.0)`. -/
def atofMs (atof : Atof) (optarg : Bytes) : Start Int :=
  match toInt64 (nearestDouble (atof.value optarg * 1000)) with
  | some ms => .run ms
  | none => .undefined

def handleOption (atof : Atof) (read : Windows) : Found StreamMergeOption → Start Windows
  | .option .clipSecs optarg => (atofMs atof optarg).bind fun ms => .run { read with clipMs := ms }
  | .option .idleSecs optarg => (atofMs atof optarg).bind fun ms => .run { read with idleMs := ms }
  | .option .help _ => .exit 0
  | .mistake => .exit 1

structure StreamMergeArgs where
  windows : Windows
  session : Bytes
  src : Bytes
  deriving DecidableEq

/-- `stream_merge_main` up to the two operands; further operands are ignored. -/
def streamMergeStart (atof : Atof) (argv : List Bytes) : Start StreamMergeArgs :=
  let scanned := scan streamMergeOptions none argv.tail
  (optionLoop (handleOption atof) ⟨defaultClipMs, defaultIdleMs⟩ scanned.found).bind fun windows =>
    match scanned.operands with
    | session :: src :: _ => .run ⟨windows, session, src⟩
    | _ => .exit 1

theorem toInt64_int (v : Int) : toInt64 v = if IsLong v then some v else none := by
  have floor : ⌊(v : ℚ)⌋ = v := Int.floor_intCast v
  have ceil : ⌈(v : ℚ)⌉ = v := Int.ceil_intCast v
  simp only [toInt64, floor, ceil, ite_self]

theorem toInt64_eq_some {q : ℚ} {ms : Int} (h : toInt64 q = some ms) :
    (if 0 ≤ q then ⌊q⌋ else ⌈q⌉) = ms ∧ IsLong ms := by
  simp only [toInt64, Option.ite_none_right_eq_some, Option.some.injEq] at h
  exact ⟨h.2, h.2 ▸ h.1⟩

theorem atofMs_eq_run {atof : Atof} {s : Bytes} {ms : Int} :
    atofMs atof s = .run ms ↔ toInt64 (nearestDouble (atof.value s * 1000)) = some ms := by
  unfold atofMs
  split <;> simp_all

section Spelled

variable (atof : Atof) {s : Bytes} {v : Int} (h : spelled s = some v)
include h

private theorem product_of_spelled : atof.value s * 1000 = ((v * 1000 : Int) : ℚ) := by
  rw [atof.exact h]
  push_cast
  rfl

/-- A text that spells an integer is multiplied exactly where the product is a long and a
double: a product that is rounded is a large one, and then an integer. -/
theorem atofMs_exact_iff :
    atofMs atof s = .run (v * 1000) ↔ IsLong (v * 1000) ∧ IsDouble ((v * 1000 : Int) : ℚ) := by
  rw [atofMs_eq_run, product_of_spelled atof h]
  have finite : IsLong (v * 1000) → |((v * 1000 : Int) : ℚ)| < 2 ^ 1024 := by
    rintro ⟨low, high⟩
    have bound : |v * 1000| < 2 ^ 64 := by
      unfold longMin longMax at *
      rw [abs_lt]
      omega
    have bound : |((v * 1000 : Int) : ℚ)| < 2 ^ 64 := by exact_mod_cast bound
    exact bound.trans_le (pow_le_pow_right₀ one_le_two (by decide))
  constructor
  · intro converted
    obtain ⟨truncated, long⟩ := toInt64_eq_some converted
    refine ⟨long, (nearestDouble_eq_self_iff (finite long)).mp ?_⟩
    rcases le_or_gt |v * 1000| (2 ^ 53) with small | large
    · exact nearestDouble_intCast (v * 1000) small
    · have large : (2 : ℚ) ^ 53 ≤ |((v * 1000 : Int) : ℚ)| := by exact_mod_cast large.le
      obtain ⟨n, rounded⟩ := nearestDouble_integer large
      rw [rounded, Int.floor_intCast, Int.ceil_intCast, ite_self] at truncated
      rw [rounded, truncated]
  · rintro ⟨long, double⟩
    rw [(nearestDouble_eq_self_iff (finite long)).mpr double, toInt64_int, if_pos long]

theorem atofMs_nonpos {ms : Int} (negative : v ≤ 0) (ran : atofMs atof s = .run ms) : ms ≤ 0 := by
  rw [atofMs_eq_run, product_of_spelled atof h] at ran
  have product : ((v * 1000 : Int) : ℚ) ≤ 0 := by
    have : v * 1000 ≤ 0 := by omega
    exact_mod_cast this
  have rounded : nearestDouble ((v * 1000 : Int) : ℚ) ≤ 0 :=
    (nearestDouble_mono product).trans_eq nearestDouble_zero
  rw [← (toInt64_eq_some ran).1]
  split_ifs
  · exact Int.floor_nonpos rounded
  · exact Int.ceil_le.mpr (by exact_mod_cast rounded)

end Spelled

end StreamDataPipeline.StreamMerge.Options
