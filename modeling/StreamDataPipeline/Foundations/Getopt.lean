/- Reading a command line with getopt_long. -/

import StreamDataPipeline.Foundations.ByteString

/-!
The option characters start with neither `+` nor `-` nor `:`, and `POSIXLY_CORRECT` is not
set: options are found behind operands too, and a mistake is reported as `?`. No two long
options of a program return the same value. The first element of `argv`, the name of the
program, is not part of the command line here.
-/

set_option autoImplicit false
set_option relaxedAutoImplicit false

namespace StreamDataPipeline.Foundations.Getopt

open ByteString

universe u v

variable {ω : Type u} {σ : Type v}

def dash : UInt8 := 45
def equals : UInt8 := 61

structure ShortOption (ω : Type u) where
  char : UInt8
  takesArgument : Bool
  val : ω

structure LongOption (ω : Type u) where
  name : Bytes
  takesArgument : Bool
  val : ω

/-- The options of a program; `val` is what a call of getopt_long returns for the option. -/
structure Options (ω : Type u) where
  short : List (ShortOption ω)
  long : List (LongOption ω)

/-- What one call returns: an option with its `optarg`, which is empty for an option that
takes no argument, or `?`. -/
inductive Found (ω : Type u)
  | option (val : ω) (optarg : Bytes)
  | mistake
  deriving DecidableEq

/-- One element of the command line: an operand, `--`, or options, of which the last may
take the next element as its argument. -/
inductive Element (ω : Type u)
  | operand
  | terminator
  | options (found : List (Found ω)) (awaits : Option ω)
  deriving DecidableEq

/-- The entries that a long name selects: the one of this very name, else all that begin
with it. -/
def matching (long : List (LongOption ω)) (name : Bytes) : List (LongOption ω) :=
  match long.find? fun entry => entry.name = name with
  | some entry => [entry]
  | none => long.filter fun entry => name.isPrefixOf entry.name

def longElement (long : List (LongOption ω)) (body : Bytes) : Element ω :=
  let (name, value) := match strchr equals body with
    | some (name, value) => (name, some value)
    | none => (body, none)
  match matching long name, value with
  | [⟨_, false, val⟩], none => .options [.option val []] none
  | [⟨_, true, val⟩], some value => .options [.option val value] none
  | [⟨_, true, val⟩], none => .options [] (some val)
  | _, _ => .options [.mistake] none

/-- The characters behind a single dash: options, up to one that takes an argument. -/
def shortElement (short : List (ShortOption ω)) : Bytes → List (Found ω) × Option ω
  | [] => ([], none)
  | c :: rest =>
      match short.find? fun entry => entry.char = c with
      | some ⟨_, true, val⟩ =>
          if rest = [] then ([], some val) else ([.option val rest], none)
      | some ⟨_, false, val⟩ =>
          ((.option val [] :: (shortElement short rest).1), (shortElement short rest).2)
      | none => ((.mistake :: (shortElement short rest).1), (shortElement short rest).2)

/-- A single dash is an operand. -/
def isOperand (arg : Bytes) : Bool := !(arg.head? = some dash && 2 ≤ arg.length)

def classify (options : Options ω) (arg : Bytes) : Element ω :=
  if isOperand arg then .operand
  else if arg = [dash, dash] then .terminator
  else if arg.take 2 = [dash, dash] then longElement options.long (arg.drop 2)
  else
    let (found, awaits) := shortElement options.short arg.tail
    .options found awaits

/-- What the calls return in turn, and the operands behind `optind` in the end. -/
structure Scan (ω : Type u) where
  found : List (Found ω)
  operands : List Bytes

/-- All calls on a command line; `awaits` is the option whose argument comes next. -/
def scan (options : Options ω) : Option ω → List Bytes → Scan ω
  | none, [] => ⟨[], []⟩
  | some _, [] => ⟨[.mistake], []⟩
  | some val, optarg :: rest =>
      let later := scan options none rest
      ⟨.option val optarg :: later.found, later.operands⟩
  | none, arg :: rest =>
      match classify options arg with
      | .operand =>
          let later := scan options none rest
          ⟨later.found, arg :: later.operands⟩
      | .terminator => ⟨[], rest⟩
      | .options found awaits =>
          let later := scan options awaits rest
          ⟨found ++ later.found, later.operands⟩

/-- How a program goes on after its options: it has returned a value, what it does is not
defined, or it runs with what it has read. -/
inductive Start (σ : Type v)
  | exit (status : Int)
  | undefined
  | run (read : σ)
  deriving DecidableEq

def Start.bind {τ : Type v} : Start σ → (σ → Start τ) → Start τ
  | .exit status, _ => .exit status
  | .undefined, _ => .undefined
  | .run read, next => next read

/-- The loop over the calls, which leaves at the first option that does not run on. -/
def optionLoop (handle : σ → Found ω → Start σ) : σ → List (Found ω) → Start σ
  | s, [] => .run s
  | s, found :: rest => (handle s found).bind fun s' => optionLoop handle s' rest

theorem Start.bind_eq_run {τ : Type v} {start : Start σ} {next : σ → Start τ} {read : τ}
    (h : start.bind next = .run read) : ∃ s, start = .run s ∧ next s = .run read := by
  cases start with
  | exit status => cases h
  | undefined => cases h
  | run s => exact ⟨s, rfl, h⟩

theorem classify_operand {options : Options ω} {arg : Bytes} (h : isOperand arg = true) :
    classify options arg = .operand := by
  unfold classify
  rw [if_pos h]

theorem classify_not_operand (options : Options ω) {arg : Bytes} (h : isOperand arg = false) :
    classify options arg ≠ .operand := by
  unfold classify longElement
  rw [if_neg (by simp [h])]
  split_ifs
  · simp
  · dsimp only
    split <;> simp
  · simp

theorem scan_argument {options : Options ω} {arg : Bytes} {val : ω}
    (h : classify options arg = .options [] (some val)) (optarg : Bytes) (rest : List Bytes) :
    scan options none (arg :: optarg :: rest) =
      ⟨.option val optarg :: (scan options none rest).found,
        (scan options none rest).operands⟩ := by
  simp [scan, h]

theorem scan_operand {options : Options ω} {arg : Bytes} (h : isOperand arg = true)
    (rest : List Bytes) :
    scan options none (arg :: rest) =
      ⟨(scan options none rest).found, arg :: (scan options none rest).operands⟩ := by
  simp [scan, classify_operand h]

theorem scan_operands_length (options : Options ω) (awaits : Option ω) (argv : List Bytes) :
    (scan options awaits argv).operands.length ≤ argv.length := by
  induction argv generalizing awaits with
  | nil => cases awaits <;> simp [scan]
  | cons arg rest ih =>
      cases awaits with
      | some val => exact Nat.le_succ_of_le (ih none)
      | none =>
          rw [scan]
          split
          · exact Nat.succ_le_succ (ih none)
          · exact Nat.le_succ _
          · exact Nat.le_succ_of_le (ih _)

theorem scan_operands_lt (options : Options ω) {argv : List Bytes}
    (h : (argv.all isOperand) = false) :
    (scan options none argv).operands.length < argv.length := by
  induction argv with
  | nil => cases h
  | cons arg rest ih =>
      cases operand : isOperand arg with
      | true =>
          rw [scan_operand operand]
          rw [List.all_cons, operand, Bool.true_and] at h
          exact Nat.succ_lt_succ (ih h)
      | false =>
          have other := classify_not_operand options operand
          rw [scan]
          split
          · exact absurd ‹_› other
          · exact Nat.lt_succ_self _
          · exact Nat.lt_succ_of_le (scan_operands_length options _ rest)

theorem scan_operands {options : Options ω} {argv : List Bytes}
    (h : (argv.all isOperand) = true) : scan options none argv = ⟨[], argv⟩ := by
  induction argv with
  | nil => rfl
  | cons arg rest ih =>
      obtain ⟨operand, others⟩ := Bool.and_eq_true_iff.mp h
      rw [scan_operand operand, ih others]

end StreamDataPipeline.Foundations.Getopt
