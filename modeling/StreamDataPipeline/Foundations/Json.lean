/- JSON texts over bytes: values, dialects, and the parser they determine. -/

import Mathlib.Data.Rat.Defs
import Mathlib.Algebra.Order.Ring.Rat
import StreamDataPipeline.Foundations.Decimal

/-!
A correct parser is free in two points: which bytes it takes unescaped in a string
beyond those the grammar allows, and how it rounds a number to a machine number. A
dialect fixes both.
-/

set_option autoImplicit false
set_option relaxedAutoImplicit false

namespace StreamDataPipeline.Foundations.Json

open ByteString Decimal

inductive JsonValue
  | null
  | bool (b : Bool)
  | number (value : ℚ)
  | string (bytes : Bytes)
  | array (items : List JsonValue)
  | object (members : List (Bytes × JsonValue))

/-- The freedom of a correct parser. Bytes below 32 may be refused inside a string;
integers up to 2^53 are machine numbers, and rounding keeps the order. -/
structure Dialect where
  raw : UInt8 → Bool
  raw_printable : ∀ b : UInt8, 32 ≤ b → raw b = true
  round : ℚ → ℚ
  round_integer : ∀ n : ℤ, |n| ≤ 2 ^ 53 → round n = n
  round_mono : Monotone round

/-- Every byte is accepted in a string and numbers are exact. -/
def exactDialect : Dialect := ⟨fun _ => true, fun _ _ => rfl, id, fun _ _ => rfl, monotone_id⟩

/-- The dialect that takes the same strings and keeps numbers exact. -/
def Dialect.unrounded (d : Dialect) : Dialect :=
  ⟨d.raw, d.raw_printable, id, fun _ _ => rfl, monotone_id⟩

def quote : UInt8 := 34
def backslash : UInt8 := 92

def isJsonSpace (b : UInt8) : Bool := b == 32 || b == tab || b == lf || b == cr

def expect (c : UInt8) (s : Bytes) : Option Bytes :=
  match s.dropWhile isJsonSpace with
  | [] => none
  | x :: rest => if x = c then some rest else none

def hexValue (b : UInt8) : Option Nat :=
  if isDigit b then some (b.toNat - 48)
  else if 97 ≤ b ∧ b ≤ 102 then some (b.toNat - 87)
  else if 65 ≤ b ∧ b ≤ 70 then some (b.toNat - 55)
  else none

def hex4 : Bytes → Option (Nat × Bytes)
  | a :: b :: c :: d :: rest => do
      let va ← hexValue a
      let vb ← hexValue b
      let vc ← hexValue c
      let vd ← hexValue d
      pure (((va * 16 + vb) * 16 + vc) * 16 + vd, rest)
  | _ => none

/-- The UTF-8 encoding of a code point. -/
def utf8 (p : Nat) : Bytes :=
  if p < 0x80 then [UInt8.ofNat p]
  else if p < 0x800 then [UInt8.ofNat (0xC0 + p / 64), UInt8.ofNat (0x80 + p % 64)]
  else if p < 0x10000 then
    [UInt8.ofNat (0xE0 + p / 4096), UInt8.ofNat (0x80 + p / 64 % 64), UInt8.ofNat (0x80 + p % 64)]
  else
    [UInt8.ofNat (0xF0 + p / 262144), UInt8.ofNat (0x80 + p / 4096 % 64),
      UInt8.ofNat (0x80 + p / 64 % 64), UInt8.ofNat (0x80 + p % 64)]

/-- The escape `\uXXXX` after its `u`; a leading surrogate needs the trailing one. -/
def unicodeEscape (s : Bytes) : Option (Bytes × Bytes) := do
  let (unit, rest) ← hex4 s
  if unit < 0xD800 ∨ 0xE000 ≤ unit then pure (utf8 unit, rest)
  else if 0xDC00 ≤ unit then none
  else match rest with
    | x :: u :: tail =>
        if x = backslash ∧ u = 117 then do
          let (low, rest) ← hex4 tail
          if 0xDC00 ≤ low ∧ low < 0xE000 then
            pure (utf8 (0x10000 + (unit - 0xD800) * 0x400 + (low - 0xDC00)), rest)
          else none
        else none
    | _ => none

/-- The byte that a one-letter escape stands for. -/
def shortEscape (e : UInt8) : Option UInt8 :=
  if e = quote ∨ e = backslash ∨ e = 47 then some e
  else if e = 98 then some 8
  else if e = 102 then some 12
  else if e = 110 then some 10
  else if e = 114 then some 13
  else if e = 116 then some 9
  else none

/-- What follows a backslash in a string. -/
def escape : Bytes → Option (Bytes × Bytes)
  | [] => none
  | e :: rest =>
      if e = 117 then unicodeEscape rest
      else (shortEscape e).map fun b => ([b], rest)

/-- The inside of a string and its closing quote; every turn uses a byte of fuel. -/
def stringBody (d : Dialect) : Nat → Bytes → Option (Bytes × Bytes)
  | 0, _ => none
  | _ + 1, [] => none
  | fuel + 1, x :: rest =>
      if x = quote then some ([], rest)
      else if x = backslash then do
        let (b, tail) ← escape rest
        let (more, tail) ← stringBody d fuel tail
        pure (b ++ more, tail)
      else if d.raw x then (stringBody d fuel rest).map fun p => (x :: p.1, p.2)
      else none

/-- An optional fraction: its digits and the rest. -/
def fraction : Bytes → Option (Bytes × Bytes)
  | [] => some ([], [])
  | x :: rest =>
      if x = 46 then
        if rest.takeWhile isDigit = [] then none
        else some (rest.takeWhile isDigit, rest.dropWhile isDigit)
      else some ([], x :: rest)

/-- An optional exponent and the rest. -/
def exponent : Bytes → Option (Int × Bytes)
  | [] => some (0, [])
  | x :: rest =>
      if x = 101 ∨ x = 69 then
        let signed := splitSign rest
        let used := signed.2.takeWhile isDigit
        if used = [] then none
        else some (if signed.1 then -(digitsValue used : Int) else digitsValue used,
          signed.2.dropWhile isDigit)
      else some (0, x :: rest)

/-- A number without its sign: the exact value and the rest. -/
def unsignedNumber (s : Bytes) : Option (ℚ × Bytes) := do
  let whole := s.takeWhile isDigit
  if whole = [] ∨ (whole.head? = some 48 ∧ whole.length ≠ 1) then none
  else do
    let (part, rest) ← fraction (s.dropWhile isDigit)
    let (power, rest) ← exponent rest
    pure ((digitsValue (whole ++ part) : ℚ) * 10 ^ (power - part.length), rest)

def number (s : Bytes) : Option (ℚ × Bytes) :=
  match s with
  | [] => none
  | x :: rest =>
      if x = 45 then (unsignedNumber rest).map fun p => (-p.1, p.2) else unsignedNumber (x :: rest)

def word (s : Bytes) : Option (JsonValue × Bytes) :=
  if ascii "true" <+: s then some (.bool true, s.drop 4)
  else if ascii "false" <+: s then some (.bool false, s.drop 5)
  else if ascii "null" <+: s then some (.null, s.drop 4)
  else none

mutual

def parseValue (d : Dialect) : Nat → Bytes → Option (JsonValue × Bytes)
  | 0, _ => none
  | fuel + 1, s =>
      match s.dropWhile isJsonSpace with
      | [] => none
      | x :: rest =>
          if x = quote then
            (stringBody d (rest.length + 1) rest).map fun p => (.string p.1, p.2)
          else if x = 123 then
            match expect 125 rest with
            | some rest => some (.object [], rest)
            | none => (parseMembers d fuel rest).map fun p => (.object p.1, p.2)
          else if x = 91 then
            match expect 93 rest with
            | some rest => some (.array [], rest)
            | none => (parseItems d fuel rest).map fun p => (.array p.1, p.2)
          else if x = 45 ∨ isDigit x then
            (number (x :: rest)).map fun p => (.number (d.round p.1), p.2)
          else word (x :: rest)

/-- The members of an object that has one, up to its closing brace. -/
def parseMembers (d : Dialect) : Nat → Bytes → Option (List (Bytes × JsonValue) × Bytes)
  | 0, _ => none
  | fuel + 1, s => do
      let name ← expect quote s
      let (key, rest) ← stringBody d (name.length + 1) name
      let rest ← expect 58 rest
      let (value, rest) ← parseValue d fuel rest
      match expect 44 rest with
      | some rest => (parseMembers d fuel rest).map fun p => ((key, value) :: p.1, p.2)
      | none => (expect 125 rest).map fun rest => ([(key, value)], rest)

/-- The items of an array that has one, up to its closing bracket. -/
def parseItems (d : Dialect) : Nat → Bytes → Option (List JsonValue × Bytes)
  | 0, _ => none
  | fuel + 1, s => do
      let (value, rest) ← parseValue d fuel s
      match expect 44 rest with
      | some rest => (parseItems d fuel rest).map fun p => (value :: p.1, p.2)
      | none => (expect 93 rest).map fun rest => ([value], rest)

end

/-- A value at the start of a text, and what follows it. -/
def parseText (d : Dialect) (s : Bytes) : Option (JsonValue × Bytes) :=
  parseValue d (s.length + 1) s

end StreamDataPipeline.Foundations.Json
