/- The integer getters of jsonl_codec.c on a parser that stores numbers as doubles. -/

import StreamDataPipeline.Foundations.Doubles
import StreamDataPipeline.Foundations.JsonRounding
import StreamDataPipeline.Lib.JsonlCodec

/-!
The getters look at the double that the parser has stored. A literal that is no integer but
is rounded to one in the safe range passes their checks.
-/

set_option autoImplicit false
set_option relaxedAutoImplicit false

namespace StreamDataPipeline.Lib.IntegerGetters

open Foundations Foundations.ByteString Foundations.Json Foundations.FloatingPoint
open Foundations.Doubles JsonlCodec

/-- What the JSON library accepts: every byte in a string, and numbers as doubles. -/
def doubleDialect : Dialect where
  raw := fun _ => true
  raw_printable := fun _ _ => rfl
  round := nearestDouble
  round_integer := nearestDouble_intCast
  round_mono := nearestDouble_mono

/-- The exact value of the number literal under a key of the line. -/
def literalValue (d : Dialect) (line key : Bytes) : Option ℚ := do
  let members ← parseObject (CJson.ofDialect d.unrounded) line
  match getItem members key with
  | some (.number q) => some q
  | _ => none

theorem parseObject_rounded {c : CJson} {d : Dialect} (correct : c.IsCorrect d) (line : Bytes) :
    parseObject c line =
      (parseObject (CJson.ofDialect d.unrounded) line).map (mapMembers d.round) := by
  have exact_parse : (CJson.ofDialect d.unrounded).parseWithOpts line =
      parseText d.unrounded line := rfl
  rw [parseObject, parseObject, correct.parses, exact_parse, parseText_unrounded d]
  rcases parseText d.unrounded line with _ | ⟨value, parseEnd⟩
  · rfl
  · cases value with
    | object members =>
        simp only [Option.map_some, JsonValue.mapNumbers]
        split_ifs <;> rfl
    | _ => rfl

theorem getItem_mapMembers (f : ℚ → ℚ) (members : List (Bytes × JsonValue)) (key : Bytes) :
    getItem (mapMembers f members) key = (getItem members key).map (JsonValue.mapNumbers f) := by
  rw [getItem, getItem, find?_mapMembers f (fun name => cstr name = key), Option.map_map,
    Option.map_map]
  rfl

theorem getItem_literal {c : CJson} {d : Dialect} (correct : c.IsCorrect d) {line key : Bytes}
    {q : ℚ} (literal : literalValue d line key = some q) :
    ∃ members, parseObject c line = some members ∧
      getItem members key = some (.number (d.round q)) := by
  obtain ⟨members, parsed, found⟩ := Option.bind_eq_some_iff.mp literal
  have item : getItem members key = some (.number q) := by
    split at found
    · rename_i value item
      rw [item, Option.some.inj found]
    · cases found
  refine ⟨mapMembers d.round members, ?_, ?_⟩
  · rw [parseObject_rounded correct, parsed, Option.map_some]
  · rw [getItem_mapMembers, item, Option.map_some, JsonValue.mapNumbers]

private theorem checked_iff {α : Type} {low value : ℚ} (convert : ℤ → α) (v : α) :
    (if value < low ∨ jsonlMaxSafeInteger < value then none
      else if value.isInt then some (convert value.num) else none) = some v ↔
    (low ≤ value ∧ value ≤ jsonlMaxSafeInteger) ∧ ∃ n : ℤ, value = n ∧ convert n = v := by
  by_cases outside : value < low ∨ jsonlMaxSafeInteger < value
  · rw [if_pos outside]
    apply iff_of_false (by simp)
    rintro ⟨⟨least, most⟩, -⟩
    rcases outside with below | above
    · exact absurd least (not_le.mpr below)
    · exact absurd most (not_le.mpr above)
  · have inside : low ≤ value ∧ value ≤ jsonlMaxSafeInteger := by
      rwa [not_or, not_lt, not_lt] at outside
    rw [if_neg outside]
    by_cases whole : value.isInt = true
    · rw [if_pos whole]
      constructor
      · intro same
        exact ⟨inside, value.num, Rat.eq_num_of_isInt whole, Option.some.inj same⟩
      · rintro ⟨-, n, rfl, rfl⟩
        rw [Rat.num_intCast]
    · rw [if_neg whole]
      apply iff_of_false (by simp)
      rintro ⟨-, n, rfl, -⟩
      exact whole (by simp [Rat.isInt])

section Getters

variable {c : CJson} {d : Dialect} {line key : Bytes} {q : ℚ}

theorem jsonlGetInt64_literal (correct : c.IsCorrect d)
    (literal : literalValue d line key = some q) (v : ℤ) :
    jsonlGetInt64 c line key = some v ↔ |d.round q| ≤ jsonlMaxSafeInteger ∧ d.round q = v := by
  obtain ⟨members, parsed, item⟩ := getItem_literal correct literal
  rw [jsonlGetInt64, parsed]
  simp only [Option.bind_eq_bind, Option.bind_some, item]
  apply (checked_iff (fun n => n) v).trans
  rw [abs_le]
  refine and_congr_right fun _ => ?_
  constructor
  · rintro ⟨n, stored, rfl⟩
    exact stored
  · intro stored
    exact ⟨v, stored, rfl⟩

theorem jsonlGetUint64_literal (correct : c.IsCorrect d)
    (literal : literalValue d line key = some q) (v : ℕ) :
    jsonlGetUint64 c line key = some v ↔
      (0 ≤ d.round q ∧ d.round q ≤ jsonlMaxSafeInteger) ∧ d.round q = v := by
  obtain ⟨members, parsed, item⟩ := getItem_literal correct literal
  rw [jsonlGetUint64, parsed]
  simp only [Option.bind_eq_bind, Option.bind_some, item]
  rw [checked_iff Int.toNat v]
  refine and_congr_right fun inside => ?_
  constructor
  · rintro ⟨n, stored, rfl⟩
    have nonneg : 0 ≤ n := by exact_mod_cast stored ▸ inside.1
    rw [stored, ← Int.cast_natCast, Int.toNat_of_nonneg nonneg]
  · intro stored
    exact ⟨v, stored, rfl⟩

end Getters

/-- Half the distance of neighbouring doubles at this number. -/
def halfGap (q : ℚ) : ℚ := 2 ^ max (Int.log 2 |q| - 53) (-1075)

theorem grid_eq (q : ℚ) : grid 53 (-1074) q / 2 = halfGap q := by
  have exponent : gridExp 53 (-1074) q - 1 = max (Int.log 2 |q| - 53) (-1075) := by
    rw [gridExp]
    omega
  rw [grid, halfGap, ← exponent, zpow_sub_one₀ two_ne_zero, div_eq_mul_inv]

section Limit

variable {n : ℤ} (inside : |(n : ℚ)| < 2 ^ 53 - 1 / 2)
include inside

theorem abs_le_of_inside : |(n : ℚ)| ≤ 2 ^ 53 - 1 := by
  have digits : |n| < 2 ^ 53 := by
    have bound : (|n| : ℚ) < 2 ^ 53 := by linarith
    exact_mod_cast bound
  have safe : |(n : ℚ)| + 1 ≤ 2 ^ 53 := by exact_mod_cast digits
  linarith

theorem nearest_of_inside : nearest 53 (-1074) (n : ℚ) = n := by
  have bound : (|n| : ℚ) < 2 ^ 53 := by linarith
  exact nearest_intCast (by exact_mod_cast bound)

end Limit

/-- In the safe range, a literal is stored as an integer if it is at most half the distance of
neighbouring doubles away from one. -/
theorem stored_integer_iff {q : ℚ} (inside : |q| < 2 ^ 53 - 1 / 2) :
    (∃ n : ℤ, nearest 53 (-1074) q = n) ↔ |q - round q| ≤ halfGap q := by
  have small : |q| < 2 ^ 53 := by linarith
  rw [nearest_integer_iff (by decide) (by decide) small, grid_eq]
  constructor
  · rintro ⟨n, near⟩
    exact (round_le q n).trans near
  · intro near
    exact ⟨round q, near⟩

theorem stored_unchanged_iff {q : ℚ} (inside : |q| < 2 ^ 53 - 1 / 2) :
    (∀ n : ℤ, nearest 53 (-1074) q = n → q = n) ↔
      (∃ n : ℤ, q = n) ∨ halfGap q < |q - round q| := by
  constructor
  · intro unchanged
    by_contra altered
    rw [not_or, not_lt, ← stored_integer_iff inside] at altered
    obtain ⟨fractional, n, stored⟩ := altered
    exact fractional ⟨n, unchanged n stored⟩
  · rintro (⟨m, rfl⟩ | far) n stored
    · exact (nearest_of_inside inside).symm.trans stored
    · exact absurd ((stored_integer_iff inside).mp ⟨n, stored⟩) (not_le.mpr far)

theorem safe_integer_iff (q : ℚ) (n : ℤ) :
    (|nearestDouble q| ≤ jsonlMaxSafeInteger ∧ nearestDouble q = n) ↔
      |nearest 53 (-1074) q| < 2 ^ 53 ∧ nearest 53 (-1074) q = n := by
  have limit : jsonlMaxSafeInteger + 1 = 2 ^ 53 := by norm_num [jsonlMaxSafeInteger]
  have range : (2 : ℚ) ^ 53 ≤ 2 ^ 1024 := pow_le_pow_right₀ one_le_two (by decide)
  constructor
  · rintro ⟨safe, stored⟩
    have small : |nearestDouble q| < 2 ^ 53 := by linarith
    have same := nearestDouble_eq_of_finite (small.trans_le range)
    rw [same] at small stored
    exact ⟨small, stored⟩
  · rintro ⟨small, rounded⟩
    have same := nearestDouble_eq (small.le.trans range)
    rw [rounded] at small
    have digits : |n| < 2 ^ 53 := by exact_mod_cast small
    have safe : |(n : ℚ)| + 1 ≤ 2 ^ 53 := by exact_mod_cast digits
    rw [same, rounded]
    exact ⟨by linarith, rfl⟩

/-- The condition on a literal under which `jsonl_get_int64` returns it as it is or not at
all: it is an integer, too large, or too far from all integers to be stored as one. -/
def Int64Kept (q : ℚ) : Prop :=
  (∃ n : ℤ, q = n) ∨ 2 ^ 53 - 1 / 2 ≤ |q| ∨ halfGap q < |q - round q|

/-- The condition for `jsonl_get_uint64`, to which a number is negative when it is not stored
as zero. -/
def Uint64Kept (q : ℚ) : Prop :=
  (∃ n : ℤ, q = n) ∨ q < -2 ^ (-1075 : ℤ) ∨ 2 ^ 53 - 1 / 2 ≤ q ∨ halfGap q < |q - round q|

section Doubles

variable {c : CJson} {d : Dialect} (correct : c.IsCorrect d) (stores : d.round = nearestDouble)
  {line key : Bytes} {q : ℚ} (literal : literalValue d line key = some q)
include correct stores literal

theorem jsonlGetInt64_double (v : ℤ) :
    jsonlGetInt64 c line key = some v ↔
      |q| < 2 ^ 53 - 1 / 2 ∧ nearest 53 (-1074) q = v := by
  rw [jsonlGetInt64_literal correct literal, stores, safe_integer_iff,
    abs_nearest_lt_two_pow_iff (by decide) (by decide)]

theorem jsonlGetUint64_double (v : ℕ) :
    jsonlGetUint64 c line key = some v ↔
      (-2 ^ (-1075 : ℤ) ≤ q ∧ q < 2 ^ 53 - 1 / 2) ∧ nearest 53 (-1074) q = v := by
  have nonneg : 0 ≤ nearest 53 (-1074) q ↔ -2 ^ (-1075 : ℤ) ≤ q := nearest_nonneg_iff (by decide)
  have below : nearest 53 (-1074) q < 2 ^ 53 ↔ q < 2 ^ 53 - 1 / 2 :=
    nearest_lt_two_pow_iff (by decide) (by decide)
  rw [jsonlGetUint64_literal correct literal, stores, ← nonneg, ← below]
  have safe := safe_integer_iff q v
  rw [Int.cast_natCast] at safe
  constructor
  · rintro ⟨⟨low, high⟩, stored⟩
    obtain ⟨small, rounded⟩ := safe.mp ⟨by rwa [abs_of_nonneg low], stored⟩
    have positive : 0 ≤ nearest 53 (-1074) q := rounded ▸ v.cast_nonneg
    rw [abs_of_nonneg positive] at small
    exact ⟨⟨positive, small⟩, rounded⟩
  · rintro ⟨⟨positive, small⟩, rounded⟩
    obtain ⟨high, stored⟩ := safe.mpr ⟨by rwa [abs_of_nonneg positive], rounded⟩
    have low : 0 ≤ nearestDouble q := stored ▸ v.cast_nonneg
    rw [abs_of_nonneg low] at high
    exact ⟨⟨low, high⟩, stored⟩

end Doubles

private theorem exact_int64_iff {q : ℚ} (inside : |q| < 2 ^ 53 - 1 / 2) :
    (∀ v : ℤ, nearest 53 (-1074) q = v ↔ |q| ≤ 2 ^ 53 - 1 ∧ q = v) ↔
      ∀ n : ℤ, nearest 53 (-1074) q = n → q = n := by
  constructor
  · intro reads n stored
    exact ((reads n).mp stored).2
  · intro unchanged v
    constructor
    · intro stored
      obtain rfl := unchanged v stored
      exact ⟨abs_le_of_inside inside, rfl⟩
    · rintro ⟨-, rfl⟩
      exact nearest_of_inside inside

private theorem exact_uint64_iff {q : ℚ} (inside : |q| < 2 ^ 53 - 1 / 2)
    (nonneg : 0 ≤ nearest 53 (-1074) q) :
    (∀ v : ℕ, nearest 53 (-1074) q = v ↔ (0 ≤ q ∧ q ≤ 2 ^ 53 - 1) ∧ q = v) ↔
      ∀ n : ℤ, nearest 53 (-1074) q = n → q = n := by
  constructor
  · intro reads n stored
    have positive : 0 ≤ n := by exact_mod_cast stored ▸ nonneg
    lift n to ℕ using positive
    exact ((reads n).mp stored).2
  · intro unchanged v
    constructor
    · intro stored
      have whole : q = (v : ℤ) := unchanged v stored
      rw [whole] at inside ⊢
      exact ⟨⟨v.cast_nonneg, (le_abs_self _).trans (abs_le_of_inside inside)⟩, rfl⟩
    · rintro ⟨-, rfl⟩
      exact nearest_of_inside (n := v) inside

/-- The getters return the value of an integer literal in the safe range and refuse all other
literals, if and only if the literal is none of those that rounding moves into the range. -/
theorem integer_getters_exact_iff {c : CJson} {d : Dialect} (correct : c.IsCorrect d)
    (stores : d.round = nearestDouble) {line key : Bytes} {q : ℚ}
    (literal : literalValue d line key = some q) :
    ((∀ v : ℕ, jsonlGetUint64 c line key = some v ↔ (0 ≤ q ∧ q ≤ 2 ^ 53 - 1) ∧ q = v) ↔
      Uint64Kept q) ∧
    ((∀ v : ℤ, jsonlGetInt64 c line key = some v ↔ |q| ≤ 2 ^ 53 - 1 ∧ q = v) ↔
      Int64Kept q) := by
  simp only [jsonlGetUint64_double correct stores literal,
    jsonlGetInt64_double correct stores literal]
  constructor
  · by_cases range : -2 ^ (-1075 : ℤ) ≤ q ∧ q < 2 ^ 53 - 1 / 2
    · have inside : |q| < 2 ^ 53 - 1 / 2 := by
        have tiny : (2 : ℚ) ^ (-1075 : ℤ) ≤ 1 := zpow_le_one_of_nonpos₀ one_le_two (by decide)
        exact abs_lt.mpr ⟨by linarith, range.2⟩
      have nonneg : 0 ≤ nearest 53 (-1074) q := (nearest_nonneg_iff (by decide)).mpr range.1
      have kept : Uint64Kept q ↔ (∃ n : ℤ, q = n) ∨ halfGap q < |q - round q| := by
        simp only [Uint64Kept, not_lt.mpr range.1, not_le.mpr range.2, false_or]
      rw [kept, ← stored_unchanged_iff inside, ← exact_uint64_iff inside nonneg]
      simp only [range, true_and, and_self]
    · refine iff_of_true ?_ ?_
      · intro v
        apply iff_of_false (fun stored => range stored.1)
        rintro ⟨⟨nonneg, safe⟩, -⟩
        have tiny : (0 : ℚ) < 2 ^ (-1075 : ℤ) := zpow_pos two_pos _
        exact range ⟨by linarith, by linarith⟩
      · rw [not_and_or, not_le, not_lt] at range
        exact .inr (range.imp_right .inl)
  · by_cases inside : |q| < 2 ^ 53 - 1 / 2
    · have kept : Int64Kept q ↔ (∃ n : ℤ, q = n) ∨ halfGap q < |q - round q| := by
        simp only [Int64Kept, not_le.mpr inside, false_or]
      rw [kept, ← stored_unchanged_iff inside, ← exact_int64_iff inside]
      simp only [inside, true_and]
    · refine iff_of_true ?_ (.inr (.inl (not_lt.mp inside)))
      intro v
      apply iff_of_false (fun stored => inside stored.1)
      rintro ⟨safe, -⟩
      exact inside (by linarith)

def fractionLine : Bytes := ascii "\x7b\"n\":9007199254740991.4\x7d"

theorem integer_getters_exact_iff_fraction :
    literalValue doubleDialect fractionLine (ascii "n") = some (90071992547409914 / 10) ∧
    ((∀ v : ℕ, jsonlGetUint64 (CJson.ofDialect doubleDialect) fractionLine (ascii "n") = some v ↔
      (0 ≤ (90071992547409914 / 10 : ℚ) ∧ (90071992547409914 / 10 : ℚ) ≤ 2 ^ 53 - 1) ∧
        (90071992547409914 / 10 : ℚ) = v) ↔ Uint64Kept (90071992547409914 / 10)) ∧
    ((∀ v : ℤ, jsonlGetInt64 (CJson.ofDialect doubleDialect) fractionLine (ascii "n") = some v ↔
      |(90071992547409914 / 10 : ℚ)| ≤ 2 ^ 53 - 1 ∧ (90071992547409914 / 10 : ℚ) = v) ↔
        Int64Kept (90071992547409914 / 10)) :=
  ⟨by decide +kernel, integer_getters_exact_iff (CJson.ofDialect_isCorrect doubleDialect) rfl
    (by decide +kernel)⟩

theorem fraction_is_returned :
    literalValue doubleDialect fractionLine (ascii "n") = some (90071992547409914 / 10) ∧
    ¬ (∀ v : ℕ, jsonlGetUint64 (CJson.ofDialect doubleDialect) fractionLine (ascii "n") = some v ↔
      (0 ≤ (90071992547409914 / 10 : ℚ) ∧ (90071992547409914 / 10 : ℚ) ≤ 2 ^ 53 - 1) ∧
        (90071992547409914 / 10 : ℚ) = v) ∧
    ¬ (∀ v : ℤ, jsonlGetInt64 (CJson.ofDialect doubleDialect) fractionLine (ascii "n") = some v ↔
      |(90071992547409914 / 10 : ℚ)| ≤ 2 ^ 53 - 1 ∧ (90071992547409914 / 10 : ℚ) = v) := by
  have unsigned : jsonlGetUint64 (CJson.ofDialect doubleDialect) fractionLine (ascii "n") =
      some 9007199254740991 := by decide +kernel
  have signed : jsonlGetInt64 (CJson.ofDialect doubleDialect) fractionLine (ascii "n") =
      some 9007199254740991 := by decide +kernel
  refine ⟨by decide +kernel, ?_, ?_⟩
  · intro reads
    have same := ((reads 9007199254740991).mp unsigned).2
    norm_num at same
  · intro reads
    have same := ((reads 9007199254740991).mp signed).2
    norm_num at same

/-- A negative number too small for a double is zero to the unsigned getter. -/
example : jsonlGetUint64 (CJson.ofDialect doubleDialect) (ascii "\x7b\"n\":-1e-400\x7d")
    (ascii "n") = some 0 := by decide +kernel

end StreamDataPipeline.Lib.IntegerGetters
