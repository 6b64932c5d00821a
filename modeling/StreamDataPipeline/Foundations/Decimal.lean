/- Decimal numerals: what printf writes for an integer and what strtol reads. -/

import Mathlib.Data.Nat.Digits.Lemmas
import StreamDataPipeline.Foundations.ByteString

set_option autoImplicit false
set_option relaxedAutoImplicit false

namespace StreamDataPipeline.Foundations.Decimal

open ByteString

def isDigit (b : UInt8) : Bool := 48 ≤ b && b ≤ 57

/-- `isspace` in the C locale. -/
def isSpace (b : UInt8) : Bool := b == 32 || (9 ≤ b && b ≤ 13)

def digitByte (d : Nat) : UInt8 := UInt8.ofNat (48 + d)

def digitValue (b : UInt8) : Nat := b.toNat - 48

def decimalNat (n : Nat) : Bytes :=
  if n = 0 then [48] else (Nat.digits 10 n).reverse.map digitByte

/-- What `%ld` prints. -/
def decimal : Int → Bytes
  | .ofNat n => decimalNat n
  | .negSucc n => 45 :: decimalNat (n + 1)

/-- The value of a digit string, read from the left. -/
def digitsValue (b : Bytes) : Nat := b.foldl (fun acc d => 10 * acc + digitValue d) 0

def longMax : Int := 2 ^ 63 - 1
def longMin : Int := -2 ^ 63

/-- A value of the C type `long`. -/
def IsLong (v : Int) : Prop := longMin ≤ v ∧ v ≤ longMax

instance : DecidablePred IsLong := fun _ => inferInstanceAs (Decidable (_ ∧ _))

/-- A value out of the range of `long` is read as the nearest bound. -/
def clampLong (v : Int) : Int := max longMin (min longMax v)

/-- The sum of two longs in the machine: what does not fit wraps around. -/
def longAdd (a b : Int) : Int := (a + b).bmod (2 ^ 64)

/-- The optional sign: whether it is a minus, and what follows it. -/
def splitSign : Bytes → Bool × Bytes
  | 43 :: rest => (false, rest)
  | 45 :: rest => (true, rest)
  | rest => (false, rest)

/-- The integer at the start of a text, exactly, and the rest behind its digits; `none`
where no digit is read. -/
def scanInteger (s : Bytes) : Option (Int × Bytes) :=
  let signed := splitSign (s.dropWhile isSpace)
  let used := signed.2.takeWhile isDigit
  if used = [] then none
  else
    let magnitude : Int := digitsValue used
    some (if signed.1 then -magnitude else magnitude, signed.2.dropWhile isDigit)

/-- `strtol(s, &end, 10)`: the value and the rest at `end`, or `none` where `end` is `s`. -/
def strtol (s : Bytes) : Option (Int × Bytes) :=
  (scanInteger s).map fun scanned => (clampLong scanned.1, scanned.2)

/-- The check `end == s || *end != '\0'` after `strtol`. -/
def strtolWhole (s : Bytes) : Option Int :=
  match strtol s with
  | some (v, []) => some v
  | _ => none

def ulongMax : Nat := 2 ^ 64 - 1

/-- What `strtoul(s, &end, 10)` returns, whether it sets `errno`, and the rest at `end`. -/
structure UnsignedRead where
  value : Nat
  outOfRange : Bool
  rest : Bytes

/-- `strtoul`: a minus sign negates modulo `2^64`, as the text asks for, and only a
magnitude beyond `unsigned long` is out of range. -/
def strtoul (s : Bytes) : Option UnsignedRead :=
  (scanInteger s).map fun scanned =>
    if scanned.1.natAbs ≤ ulongMax then
      ⟨(scanned.1 % 2 ^ 64).toNat, false, scanned.2⟩
    else ⟨ulongMax, true, scanned.2⟩

/-- The integer that a text spells from its first blank to its last digit. -/
def spelled (s : Bytes) : Option Int :=
  match scanInteger s with
  | some (v, []) => some v
  | _ => none

private theorem digitByte_cases :
    ∀ d < 10, isDigit (digitByte d) = true ∧ digitValue (digitByte d) = d := by decide

theorem digitByte_isDigit {d : Nat} (h : d < 10) : isDigit (digitByte d) = true :=
  (digitByte_cases d h).1

theorem digitValue_digitByte {d : Nat} (h : d < 10) : digitValue (digitByte d) = d :=
  (digitByte_cases d h).2

theorem decimalNat_digits (n : Nat) : ∀ b ∈ decimalNat n, isDigit b = true := by
  intro b hb
  unfold decimalNat at hb
  split_ifs at hb with zero
  · rw [List.mem_singleton.mp hb]
    decide
  · obtain ⟨d, hd, rfl⟩ := List.mem_map.mp hb
    exact digitByte_isDigit (Nat.digits_lt_base (by decide) (List.mem_reverse.mp hd))

theorem decimalNat_ne_nil (n : Nat) : decimalNat n ≠ [] := by
  unfold decimalNat
  split_ifs with zero
  · simp
  · simpa using Nat.digits_ne_nil_iff_ne_zero.mpr zero

private theorem digitsValue_reverse_map (l : List Nat) (small : ∀ d ∈ l, d < 10) :
    digitsValue (l.reverse.map digitByte) = Nat.ofDigits 10 l := by
  induction l with
  | nil => rfl
  | cons d l ih =>
      have tail := ih fun e he => small e (List.mem_cons_of_mem d he)
      have head := digitValue_digitByte (small d List.mem_cons_self)
      simp only [digitsValue, List.reverse_cons, List.map_append, List.map_cons, List.map_nil,
        List.foldl_append, List.foldl_cons, List.foldl_nil] at tail ⊢
      rw [tail, head, Nat.ofDigits_cons, Nat.add_comm]

theorem digitsValue_decimalNat (n : Nat) : digitsValue (decimalNat n) = n := by
  unfold decimalNat
  split_ifs with zero
  · rw [zero]
    rfl
  · rw [digitsValue_reverse_map _ fun d hd => Nat.digits_lt_base (by decide) hd]
    exact Nat.ofDigits_digits 10 n

private theorem takeWhile_digits {b : Bytes} (h : ∀ d ∈ b, isDigit d = true) :
    b.takeWhile isDigit = b ∧ b.dropWhile isDigit = [] :=
  ⟨List.takeWhile_eq_self_iff.mpr h, List.dropWhile_eq_nil_iff.mpr h⟩

private theorem digit_not_sign {b : UInt8} (h : isDigit b = true) :
    isSpace b = false ∧ b ≠ 43 ∧ b ≠ 45 := by
  simp only [isDigit, Bool.and_eq_true, decide_eq_true_eq, UInt8.le_iff_toNat_le] at h
  refine ⟨?_, ?_, ?_⟩
  · simp only [isSpace, Bool.or_eq_false_iff, beq_eq_false_iff_ne, Bool.and_eq_false_iff,
      decide_eq_false_iff_not, ne_eq, ← UInt8.toNat_inj, UInt8.le_iff_toNat_le]
    have low : (48 : UInt8).toNat = 48 := rfl
    have space : (32 : UInt8).toNat = 32 := rfl
    have top : (13 : UInt8).toNat = 13 := rfl
    omega
  · rintro rfl
    exact absurd h.1 (by decide)
  · rintro rfl
    exact absurd h.1 (by decide)

private theorem strtol_of_signed {s b : Bytes} {negative : Bool}
    (signed : splitSign (s.dropWhile isSpace) = (negative, b)) (nonempty : b ≠ [])
    (digits : ∀ d ∈ b, isDigit d = true) :
    strtol s =
      some (clampLong (if negative then -(digitsValue b : Int) else digitsValue b), []) := by
  obtain ⟨taken, dropped⟩ := takeWhile_digits digits
  simp [strtol, scanInteger, signed, taken, dropped, nonempty]

private theorem strtol_magnitude {b : Bytes} (nonempty : b ≠ [])
    (digits : ∀ d ∈ b, isDigit d = true) :
    strtol b = some (clampLong (digitsValue b), []) ∧
      strtol (45 :: b) = some (clampLong (-(digitsValue b : Int)), []) := by
  have minus : isSpace 45 = false := by decide
  constructor
  · cases b with
    | nil => exact absurd rfl nonempty
    | cons d rest =>
        obtain ⟨space, plus, dash⟩ := digit_not_sign (digits d List.mem_cons_self)
        have signed : splitSign ((d :: rest).dropWhile isSpace) = (false, d :: rest) := by
          rw [List.dropWhile_cons_of_neg (by simp [space])]
          unfold splitSign
          split <;> simp_all
        exact strtol_of_signed signed nonempty digits
  · have signed : splitSign ((45 :: b).dropWhile isSpace) = (true, b) := by
      rw [List.dropWhile_cons_of_neg (by simp [minus])]
      rfl
    exact strtol_of_signed signed nonempty digits

theorem strtolWhole_digits {b : Bytes} (nonempty : b ≠ []) (digits : ∀ d ∈ b, isDigit d = true) :
    strtolWhole b = some (clampLong (digitsValue b)) ∧
      strtolWhole (45 :: b) = some (clampLong (-(digitsValue b : Int))) := by
  obtain ⟨plain, signed⟩ := strtol_magnitude nonempty digits
  simp [strtolWhole, plain, signed]

theorem clampLong_of_long {v : Int} (long : IsLong v) : clampLong v = v := by
  obtain ⟨low, high⟩ := long
  unfold clampLong
  omega

theorem longAdd_long (a b : Int) : IsLong (longAdd a b) := by
  have low := Int.le_bmod (x := a + b) (m := 2 ^ 64) (by decide)
  have high := Int.bmod_lt (x := a + b) (m := 2 ^ 64) (by decide)
  unfold IsLong longMin longMax longAdd
  omega

theorem longAdd_of_fits {a b : Int} (fits : IsLong (a + b)) : longAdd a b = a + b := by
  obtain ⟨low, high⟩ := fits
  unfold longMin at low
  unfold longMax at high
  apply Int.bmod_eq_of_le <;> omega

theorem longAdd_beyond {a b : Int} (ha : IsLong a) (hb : IsLong b) (beyond : longMax < a + b) :
    longAdd a b = a + b - 2 ^ 64 := by
  have around : (a + b - 2 ^ 64).bmod (2 ^ 64) = (a + b).bmod (2 ^ 64) :=
    Int.sub_bmod_right (a + b) (2 ^ 64)
  rw [longAdd, ← around]
  have topA := ha.2
  have topB := hb.2
  unfold longMax at topA topB beyond
  apply Int.bmod_eq_of_le <;> omega

theorem strtol_long {s rest : Bytes} {v : Int} (h : strtol s = some (v, rest)) : IsLong v := by
  obtain ⟨scanned, _, equal⟩ := Option.map_eq_some_iff.mp h
  cases equal
  unfold clampLong IsLong longMin longMax
  omega

theorem strtolWhole_long {s : Bytes} {v : Int} (h : strtolWhole s = some v) : IsLong v := by
  unfold strtolWhole at h
  split at h
  · cases h
    exact strtol_long ‹_›
  · cases h

theorem spelled_eq_some {s : Bytes} {v : Int} :
    spelled s = some v ↔ scanInteger s = some (v, []) := by
  unfold spelled
  split
  · rename_i scanned
    rw [scanned]
    simp
  · rename_i other
    constructor
    · intro h
      cases h
    · intro scanned
      exact absurd scanned (other v)

theorem strtolWhole_of_spelled {s : Bytes} {v : Int} (h : spelled s = some v) :
    strtolWhole s = some (clampLong v) := by
  simp [strtolWhole, strtol, spelled_eq_some.mp h]

private theorem splitSign_chars (s : Bytes) :
    ∀ b ∈ s, b ∈ (splitSign s).2 ∨ b = 43 ∨ b = 45 := by
  intro b hb
  unfold splitSign
  split
  · rcases List.mem_cons.mp hb with plus | rest
    · exact .inr (.inl plus)
    · exact .inl rest
  · rcases List.mem_cons.mp hb with minus | rest
    · exact .inr (.inr minus)
    · exact .inl rest
  · exact .inl hb

theorem strtolWhole_chars {s : Bytes} {v : Int} (h : strtolWhole s = some v) :
    ∀ b ∈ s, isSpace b = true ∨ b = 43 ∨ b = 45 ∨ isDigit b = true := by
  unfold strtolWhole at h
  split at h
  · rename_i read
    have stop : (splitSign (s.dropWhile isSpace)).2.dropWhile isDigit = [] := by
      obtain ⟨⟨n, rest⟩, scanned, equal⟩ := Option.map_eq_some_iff.mp read
      obtain rfl : rest = [] := congrArg Prod.snd equal
      unfold scanInteger at scanned
      dsimp only at scanned
      split_ifs at scanned <;>
        exact congrArg Prod.snd (Option.some.inj scanned)
    have digits := List.dropWhile_eq_nil_iff.mp stop
    intro b hb
    rw [← List.takeWhile_append_dropWhile (p := isSpace) (l := s)] at hb
    rcases List.mem_append.mp hb with blank | rest
    · exact .inl (List.mem_takeWhile_imp blank)
    · rcases splitSign_chars _ b rest with digit | plus | minus
      · exact .inr (.inr (.inr (digits b digit)))
      · exact .inr (.inl plus)
      · exact .inr (.inr (.inl minus))
  · cases h

/-- strtol reads back what `%ld` printed of any value that a long can hold. -/
theorem strtolWhole_decimal {v : Int} (long : IsLong v) :
    strtolWhole (decimal v) = some v := by
  have inside := clampLong_of_long long
  cases v with
  | ofNat n =>
      have read := (strtolWhole_digits (decimalNat_ne_nil n) (decimalNat_digits n)).1
      rw [digitsValue_decimalNat] at read
      rw [decimal, read]
      exact congrArg some inside
  | negSucc n =>
      have read := (strtolWhole_digits (decimalNat_ne_nil (n + 1)) (decimalNat_digits (n + 1))).2
      rw [digitsValue_decimalNat] at read
      rw [decimal, read]
      exact congrArg some inside

theorem decimalNat_dropLast {n : Nat} (large : 10 ≤ n) :
    (decimalNat n).dropLast = decimalNat (n / 10) := by
  have positive : n / 10 ≠ 0 := by omega
  rw [decimalNat, decimalNat, if_neg (by omega), if_neg positive,
    Nat.digits_def' (by decide) (by omega), List.reverse_cons, List.map_append, List.map_singleton,
    List.dropLast_concat]

theorem length_decimalNat_of_lt {n : Nat} (small : n < 10) : (decimalNat n).length = 1 := by
  unfold decimalNat
  split_ifs with zero
  · rfl
  · rw [Nat.digits_of_lt 10 n zero small]
    rfl

theorem decimalNat_take {n j : Nat} (left : j < (decimalNat n).length) :
    (decimalNat n).take ((decimalNat n).length - j) = decimalNat (n / 10 ^ j) ∧
      (n / 10 ^ j = 0 ↔ n = 0) := by
  induction j generalizing n with
  | zero => simp
  | succ j ih =>
      have large : 10 ≤ n := by
        by_contra small
        have single := length_decimalNat_of_lt (Nat.lt_of_not_le small)
        omega
      have length : (decimalNat (n / 10)).length = (decimalNat n).length - 1 := by
        rw [← decimalNat_dropLast large, List.length_dropLast]
      obtain ⟨cut, zero⟩ := ih (n := n / 10) (by omega)
      rw [length, ← decimalNat_dropLast large, List.dropLast_eq_take, List.take_take] at cut
      rw [Nat.pow_succ', ← Nat.div_div_eq_div_mul, ← cut, zero]
      refine ⟨?_, by omega⟩
      congr 1
      omega

private theorem digits_take (m n : Nat) :
    (decimalNat m).take (n + 1) ≠ [] ∧
      (∀ d ∈ (decimalNat m).take (n + 1), isDigit d = true) ∧
      ∃ j, digitsValue ((decimalNat m).take (n + 1)) = m / 10 ^ j ∧
        (((m / 10 ^ j : Nat) : Int) = 0 ↔ (m : Int) = 0) := by
  refine ⟨by simp [decimalNat_ne_nil],
    fun d mem => decimalNat_digits m d (List.mem_of_mem_take mem), ?_⟩
  by_cases whole : (decimalNat m).length ≤ n + 1
  · exact ⟨0, by simp [List.take_of_length_le whole, digitsValue_decimalNat], by simp⟩
  · obtain ⟨cut, zero⟩ := decimalNat_take (n := m) (j := (decimalNat m).length - (n + 1)) (by omega)
    rw [Nat.sub_sub_self (Nat.le_of_not_le whole)] at cut
    exact ⟨_, by rw [cut, digitsValue_decimalNat], by exact_mod_cast zero⟩

/-- What strtol reads of a numeral whose end is missing: the value without its last digits, or
nothing where no digit is left. -/
theorem strtolWhole_decimal_take {v : Int} (long : IsLong v) (n : Nat) {e : Int}
    (read : strtolWhole ((decimal v).take n) = some e) :
    ∃ j : Nat, e = v.tdiv (10 ^ j) ∧ (e = 0 ↔ v = 0) := by
  obtain ⟨low, high⟩ := long
  unfold longMin at low
  unfold longMax at high
  cases v with
  | ofNat m =>
      cases n with
      | zero => simp [decimal, strtolWhole, strtol, scanInteger, splitSign] at read
      | succ n =>
          obtain ⟨nonempty, digits, j, value, zero⟩ := digits_take m n
          have smaller : ((m / 10 ^ j : Nat) : Int) ≤ m := by
            exact_mod_cast Nat.div_le_self m (10 ^ j)
          have inside : IsLong ((m / 10 ^ j : Nat) : Int) := by
            unfold IsLong longMin longMax
            rw [Int.ofNat_eq_natCast] at high
            omega
          rw [decimal, (strtolWhole_digits nonempty digits).1, value, clampLong_of_long inside,
            Option.some.injEq] at read
          rw [← read]
          exact ⟨j, (Int.ofNat_tdiv m (10 ^ j)).trans (by simp), zero⟩
  | negSucc m =>
      cases n with
      | zero => simp [decimal, strtolWhole, strtol, scanInteger, splitSign] at read
      | succ n =>
          cases n with
          | zero => simp [decimal, strtolWhole, strtol, scanInteger, splitSign, isSpace] at read
          | succ n =>
              obtain ⟨nonempty, digits, j, value, zero⟩ := digits_take (m + 1) n
              have smaller : (((m + 1) / 10 ^ j : Nat) : Int) ≤ (m + 1 : Nat) := by
                exact_mod_cast Nat.div_le_self (m + 1) (10 ^ j)
              have inside : IsLong (-(((m + 1) / 10 ^ j : Nat) : Int)) := by
                unfold IsLong longMin longMax
                rw [Int.negSucc_eq] at low
                omega
              rw [decimal, List.take_succ_cons, (strtolWhole_digits nonempty digits).2, value,
                clampLong_of_long inside, Option.some.injEq] at read
              refine ⟨j, ?_, ?_⟩
              · rw [← read, Int.negSucc_eq, Int.neg_tdiv]
                exact congrArg Neg.neg ((Int.ofNat_tdiv (m + 1) (10 ^ j)).trans (by simp))
              · rw [← read, Int.negSucc_eq, neg_eq_zero, neg_eq_zero]
                exact zero

theorem decimal_chars (v : Int) : ∀ b ∈ decimal v, isDigit b = true ∨ b = 45 := by
  intro b hb
  cases v with
  | ofNat n => exact .inl (decimalNat_digits n b hb)
  | negSucc n =>
      rcases List.mem_cons.mp hb with minus | digit
      · exact .inr minus
      · exact .inl (decimalNat_digits (n + 1) b digit)

theorem decimal_printable (v : Int) : ∀ b ∈ decimal v, 32 ≤ b := by
  intro b mem
  rcases decimal_chars v b mem with digit | rfl
  · simp only [isDigit, Bool.and_eq_true, decide_eq_true_eq, UInt8.le_iff_toNat_le] at digit
    exact UInt8.le_iff_toNat_le.mpr (le_trans (by decide) digit.1)
  · decide

theorem decimal_ne_nil (v : Int) : decimal v ≠ [] := by
  cases v with
  | ofNat n => exact decimalNat_ne_nil n
  | negSucc n => simp [decimal]

private theorem digitByte_zero : ∀ d < 10, digitByte d = 48 → d = 0 := by decide

theorem decimalNat_head {n : Nat} (h : (decimalNat n).head? = some 48) : n = 0 := by
  by_contra positive
  have digits := Nat.digits_ne_nil_iff_ne_zero (b := 10).mpr positive
  rw [decimalNat, if_neg positive, List.head?_map, List.head?_reverse,
    List.getLast?_eq_some_getLast digits, Option.map_some, Option.some.injEq] at h
  have small := Nat.digits_lt_base (by decide) (List.getLast_mem digits)
  exact Nat.getLast_digit_ne_zero 10 positive (digitByte_zero _ small h)

private theorem decimalNat_ne_minus (m n : Nat) : decimalNat m ≠ 45 :: decimalNat n := by
  intro equal
  have digit := decimalNat_digits m 45 (equal ▸ List.mem_cons_self)
  exact absurd digit (by decide)

theorem decimal_injective : Function.Injective decimal := by
  intro v w h
  cases v with
  | ofNat m =>
      cases w with
      | ofNat n =>
          have value := congrArg digitsValue h
          simp only [decimal, digitsValue_decimalNat] at value
          rw [value]
      | negSucc n => exact absurd h (decimalNat_ne_minus m (n + 1))
  | negSucc m =>
      cases w with
      | ofNat n => exact absurd h.symm (decimalNat_ne_minus n (m + 1))
      | negSucc n =>
          have value := congrArg digitsValue (List.cons.inj h).2
          simp only [digitsValue_decimalNat, Nat.add_right_cancel_iff] at value
          rw [value]

end StreamDataPipeline.Foundations.Decimal
