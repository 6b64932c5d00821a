/- Writing JSON texts, and what every correct parser reads back from them. -/

import StreamDataPipeline.Foundations.Json

set_option autoImplicit false
set_option relaxedAutoImplicit false

namespace StreamDataPipeline.Foundations.JsonText

open ByteString Decimal Json

/-- A byte between quotes that stands for itself. -/
def Plain (d : Dialect) (b : UInt8) : Prop := b ≠ quote ∧ b ≠ backslash ∧ d.raw b = true

instance (d : Dialect) : DecidablePred (Plain d) := fun _ => inferInstanceAs (Decidable (_ ∧ _))

def quoted (body : Bytes) : Bytes := quote :: (body ++ [quote])

def hexDigit (n : Nat) : UInt8 := if n < 10 then UInt8.ofNat (48 + n) else UInt8.ofNat (87 + n)

/-- How a byte of a string is printed. -/
def escapeByte (b : UInt8) : Bytes :=
  if b = quote ∨ b = backslash then [backslash, b]
  else if b = 8 then [backslash, 98]
  else if b = 12 then [backslash, 102]
  else if b = 10 then [backslash, 110]
  else if b = 13 then [backslash, 114]
  else if b = 9 then [backslash, 116]
  else if b < 32 then
    [backslash, 117, 48, 48, hexDigit (b.toNat / 16), hexDigit (b.toNat % 16)]
  else [b]

def printString (s : Bytes) : Bytes := quoted (s.flatMap escapeByte)

/-- Texts with commas between them. -/
def commaSeparated : List Bytes → Bytes
  | [] => []
  | [t] => t
  | t :: ts => t ++ 44 :: commaSeparated ts

def arrayText (items : List Bytes) : Bytes := 91 :: (commaSeparated items ++ [93])

/-- One member of an object: its name and the text of its value. -/
def memberText (member : Bytes × Bytes) : Bytes := quoted member.1 ++ 58 :: member.2

def objectText (members : List (Bytes × Bytes)) : Bytes :=
  123 :: (commaSeparated (members.map memberText) ++ [125])

/-- What follows a value: nothing, a comma or a closing bracket. -/
def Ended (rest : Bytes) : Prop := ∀ x ∈ rest.head?, x = 44 ∨ x = 93 ∨ x = 125

/-- A text that every parser of the dialect reads as the value, whatever follows. -/
structure Reads (d : Dialect) (text : Bytes) (v : JsonValue) : Prop where
  starts : ∃ x tail, text = x :: tail ∧ isJsonSpace x = false ∧ x ≠ 93
  parses : ∀ fuel rest, text.length < fuel → Ended rest →
    parseValue d fuel (text ++ rest) = some (v, rest)

variable {d : Dialect}

theorem commaSeparated_cons (t next : Bytes) (ts : List Bytes) :
    commaSeparated (t :: next :: ts) = t ++ 44 :: commaSeparated (next :: ts) := rfl

theorem commaSeparated_flatMap (t : Bytes) (ts : List Bytes) :
    commaSeparated (t :: ts) = t ++ ts.flatMap (44 :: ·) := by
  induction ts generalizing t with
  | nil => simp [commaSeparated]
  | cons next ts ih => rw [commaSeparated_cons, ih next, List.flatMap_cons, List.cons_append]

theorem commaSeparated_concat (t : Bytes) (ts : List Bytes) (last : Bytes) :
    commaSeparated ((t :: ts) ++ [last]) = commaSeparated (t :: ts) ++ 44 :: last := by
  rw [List.cons_append, commaSeparated_flatMap, commaSeparated_flatMap]
  simp

private theorem mem_commaSeparated {b : UInt8} {ts : List Bytes} (mem : b ∈ commaSeparated ts) :
    b = 44 ∨ ∃ t ∈ ts, b ∈ t := by
  cases ts with
  | nil => cases mem
  | cons t ts =>
      rw [commaSeparated_flatMap] at mem
      rcases List.mem_append.mp mem with first | later
      · exact .inr ⟨t, List.mem_cons_self, first⟩
      · obtain ⟨next, inside, here⟩ := List.mem_flatMap.mp later
        rcases List.mem_cons.mp here with comma | here
        · exact .inl comma
        · exact .inr ⟨next, List.mem_cons_of_mem t inside, here⟩

private theorem mem_commaSeparated_of_mem {b : UInt8} {t : Bytes} {ts : List Bytes}
    (inside : t ∈ ts) (mem : b ∈ t) : b ∈ commaSeparated ts := by
  cases ts with
  | nil => cases inside
  | cons first ts =>
      rw [commaSeparated_flatMap]
      rcases List.mem_cons.mp inside with rfl | inside
      · exact List.mem_append_left _ mem
      · exact List.mem_append_right _
          (List.mem_flatMap.mpr ⟨t, inside, List.mem_cons_of_mem 44 mem⟩)

theorem quoted_bytes {P : UInt8 → Prop} (visible : ∀ b, 32 ≤ b → P b) {body : Bytes}
    (inside : ∀ b ∈ body, P b) : ∀ b ∈ quoted body, P b := by
  intro b mem
  simp only [quoted, List.mem_cons, List.mem_append, List.not_mem_nil, or_false] at mem
  rcases mem with rfl | here | rfl
  · exact visible quote (by decide)
  · exact inside b here
  · exact visible quote (by decide)

theorem arrayText_bytes {P : UInt8 → Prop} (visible : ∀ b, 32 ≤ b → P b) {items : List Bytes}
    (inside : ∀ item ∈ items, ∀ b ∈ item, P b) : ∀ b ∈ arrayText items, P b := by
  intro b mem
  simp only [arrayText, List.mem_cons, List.mem_append, List.not_mem_nil, or_false] at mem
  rcases mem with rfl | here | rfl
  · exact visible 91 (by decide)
  · rcases mem_commaSeparated here with rfl | ⟨item, found, here⟩
    · exact visible 44 (by decide)
    · exact inside item found b here
  · exact visible 93 (by decide)

theorem objectText_bytes {P : UInt8 → Prop} (visible : ∀ b, 32 ≤ b → P b)
    {members : List (Bytes × Bytes)}
    (inside : ∀ member ∈ members, (∀ b ∈ member.1, P b) ∧ ∀ b ∈ member.2, P b) :
    ∀ b ∈ objectText members, P b := by
  intro b mem
  simp only [objectText, List.mem_cons, List.mem_append, List.not_mem_nil, or_false] at mem
  rcases mem with rfl | here | rfl
  · exact visible 123 (by decide)
  · rcases mem_commaSeparated here with rfl | ⟨text, found, here⟩
    · exact visible 44 (by decide)
    obtain ⟨member, listed, rfl⟩ := List.mem_map.mp found
    rcases List.mem_append.mp here with name | value
    · exact quoted_bytes visible (inside member listed).1 b name
    · rcases List.mem_cons.mp value with rfl | value
      · exact visible 58 (by decide)
      · exact (inside member listed).2 b value
  · exact visible 125 (by decide)

theorem mem_objectText {b : UInt8} {member : Bytes × Bytes} {members : List (Bytes × Bytes)}
    (found : member ∈ members) (mem : b ∈ member.2) : b ∈ objectText members := by
  have inMember : b ∈ memberText member :=
    List.mem_append_right _ (List.mem_cons_of_mem 58 mem)
  have inList := mem_commaSeparated_of_mem (List.mem_map_of_mem (f := memberText) found) inMember
  exact List.mem_cons_of_mem 123 (List.mem_append_left _ inList)

theorem expect_self {c : UInt8} (solid : isJsonSpace c = false) (rest : Bytes) :
    expect c (c :: rest) = some rest := by simp [expect, solid]

theorem expect_other {c x : UInt8} (solid : isJsonSpace x = false) (different : x ≠ c)
    (rest : Bytes) : expect c (x :: rest) = none := by simp [expect, solid, different]

theorem plain_of_visible {s : Bytes} (visible : ∀ b ∈ s, b ≠ quote ∧ b ≠ backslash ∧ 32 ≤ b) :
    ∀ b ∈ s, Plain d b := fun b mem =>
  ⟨(visible b mem).1, (visible b mem).2.1, d.raw_printable b (visible b mem).2.2⟩

theorem stringBody_plain {s : Bytes} (plain : ∀ b ∈ s, Plain d b) {fuel : Nat}
    (enough : s.length < fuel) (rest : Bytes) :
    stringBody d fuel (s ++ quote :: rest) = some (s, rest) := by
  induction s generalizing fuel with
  | nil =>
      obtain ⟨n, rfl⟩ := Nat.exists_eq_add_of_lt enough
      simp [stringBody]
  | cons x s ih =>
      obtain ⟨n, rfl⟩ : ∃ n, fuel = n + 1 := ⟨fuel - 1, by simp at enough; omega⟩
      obtain ⟨notQuote, notBackslash, raw⟩ := plain x List.mem_cons_self
      have rest_read := ih (fun b hb => plain b (List.mem_cons_of_mem x hb))
        (show s.length < n by simpa using enough)
      simp [stringBody, notQuote, notBackslash, raw, rest_read]

private theorem hexDigit_value : ∀ n < 16, hexValue (hexDigit n) = some n := by decide

private theorem escapeByte_cases (b : UInt8) :
    (escapeByte b = [b] ∧ b ≠ quote ∧ b ≠ backslash ∧ 32 ≤ b) ∨
      ∃ e, escapeByte b = backslash :: e ∧ ∀ rest, escape (e ++ rest) = some ([b], rest) := by
  unfold escapeByte
  split_ifs with mark h8 h12 h10 h13 h9 control
  · refine .inr ⟨[b], rfl, fun rest => ?_⟩
    rcases mark with rfl | rfl <;> rfl
  · exact .inr ⟨[98], rfl, fun rest => by rw [h8]; rfl⟩
  · exact .inr ⟨[102], rfl, fun rest => by rw [h12]; rfl⟩
  · exact .inr ⟨[110], rfl, fun rest => by rw [h10]; rfl⟩
  · exact .inr ⟨[114], rfl, fun rest => by rw [h13]; rfl⟩
  · exact .inr ⟨[116], rfl, fun rest => by rw [h9]; rfl⟩
  · refine .inr ⟨_, rfl, fun rest => ?_⟩
    have small : b.toNat < 32 := UInt8.lt_iff_toNat_lt.mp control
    have high := hexDigit_value (b.toNat / 16) (by omega)
    have low := hexDigit_value (b.toNat % 16) (by omega)
    have zero : hexValue 48 = some 0 := rfl
    have joined : ((0 * 16 + 0) * 16 + b.toNat / 16) * 16 + b.toNat % 16 = b.toNat := by omega
    have ascii : utf8 b.toNat = [b] := by
      rw [utf8, if_pos (by omega)]
      simp
    simp only [List.cons_append, List.nil_append, escape, unicodeEscape, hex4, zero, high, low,
      Option.bind_eq_bind, Option.bind_some, Option.pure_def, if_true, joined]
    rw [if_pos (.inl (by omega)), ascii]
  · exact .inl ⟨rfl, fun h => mark (.inl h), fun h => mark (.inr h), UInt8.not_lt.mp control⟩

private theorem hexDigit_ge : ∀ n < 16, 32 ≤ hexDigit n := by decide

theorem printed_ge (s : Bytes) : ∀ b ∈ s.flatMap escapeByte, 32 ≤ b := by
  intro b hb
  obtain ⟨x, _, hx⟩ := List.mem_flatMap.mp hb
  unfold escapeByte at hx
  split_ifs at hx with mark h8 h12 h10 h13 h9 control
  · simp only [List.mem_cons, List.not_mem_nil, or_false] at hx
    rcases hx with rfl | rfl
    · decide
    · rcases mark with rfl | rfl <;> decide
  iterate 5
    · simp only [List.mem_cons, List.not_mem_nil, or_false] at hx
      rcases hx with rfl | rfl <;> decide
  · have small : x.toNat < 32 := UInt8.lt_iff_toNat_lt.mp control
    simp only [List.mem_cons, List.not_mem_nil, or_false] at hx
    rcases hx with rfl | rfl | rfl | rfl | rfl | rfl
    iterate 4 · decide
    · exact hexDigit_ge _ (by omega)
    · exact hexDigit_ge _ (by omega)
  · simp only [List.mem_cons, List.not_mem_nil, or_false] at hx
    exact hx ▸ UInt8.not_lt.mp control

theorem stringBody_printed (s : Bytes) {fuel : Nat} (enough : s.length < fuel) (rest : Bytes) :
    stringBody d fuel (s.flatMap escapeByte ++ quote :: rest) = some (s, rest) := by
  induction s generalizing fuel with
  | nil =>
      obtain ⟨n, rfl⟩ := Nat.exists_eq_add_of_lt enough
      simp [stringBody]
  | cons b s ih =>
      obtain ⟨n, rfl⟩ : ∃ n, fuel = n + 1 := ⟨fuel - 1, by simp at enough; omega⟩
      have rest_read := ih (show s.length < n by simpa using enough)
      rw [List.flatMap_cons, List.append_assoc]
      rcases escapeByte_cases b with ⟨same, notQuote, notBackslash, printable⟩ | ⟨e, written, read⟩
      · have raw := d.raw_printable b printable
        simp [same, stringBody, notQuote, notBackslash, raw, rest_read]
      · have marked : backslash ≠ quote := by decide
        simp [written, stringBody, marked, read, rest_read]

theorem ended_cons {x : UInt8} {rest : Bytes} (h : x = 44 ∨ x = 93 ∨ x = 125) :
    Ended (x :: rest) := by
  intro y hy
  obtain rfl : x = y := by simpa using hy
  exact h

theorem ended_nil : Ended [] := by simp [Ended]

theorem parseValue_quote {fuel : Nat} (s : Bytes) :
    parseValue d (fuel + 1) (quote :: s) =
      (stringBody d (s.length + 1) s).map fun p => (.string p.1, p.2) := by
  have solid : isJsonSpace quote = false := rfl
  simp [parseValue, solid]

theorem reads_string {body s : Bytes}
    (read : ∀ fuel rest, body.length < fuel → stringBody d fuel (body ++ quote :: rest) =
      some (s, rest)) : Reads d (quoted body) (.string s) where
  starts := ⟨quote, body ++ [quote], rfl, rfl, by decide⟩
  parses := by
    intro fuel rest enough _
    obtain ⟨n, rfl⟩ : ∃ n, fuel = n + 1 := ⟨fuel - 1, by omega⟩
    have shape : quoted body ++ rest = quote :: (body ++ quote :: rest) := by simp [quoted]
    rw [shape, parseValue_quote, read _ rest (by simp)]
    rfl

theorem reads_quoted {s : Bytes} (plain : ∀ b ∈ s, Plain d b) : Reads d (quoted s) (.string s) :=
  reads_string fun _ rest enough => stringBody_plain plain enough rest

theorem length_le_escaped (s : Bytes) : s.length ≤ (s.flatMap escapeByte).length := by
  induction s with
  | nil => simp
  | cons b s ih =>
      have positive : 0 < (escapeByte b).length := by
        rcases escapeByte_cases b with ⟨same, _⟩ | ⟨e, written, _⟩ <;> simp [*]
      simp only [List.flatMap_cons, List.length_append, List.length_cons]
      omega

private theorem takeWhile_numeral {digits rest : Bytes} (all : ∀ b ∈ digits, isDigit b = true)
    (ended : Ended rest) :
    (digits ++ rest).takeWhile isDigit = digits ∧ (digits ++ rest).dropWhile isDigit = rest := by
  have stop : rest.takeWhile isDigit = [] ∧ rest.dropWhile isDigit = rest := by
    cases rest with
    | nil => simp
    | cons x tail =>
        have notDigit : isDigit x = false := by
          rcases ended x rfl with rfl | rfl | rfl <;> rfl
        simp [notDigit]
  rw [List.takeWhile_append_of_pos all, List.dropWhile_append_of_pos all, stop.1, stop.2,
    List.append_nil]
  exact ⟨rfl, rfl⟩

private theorem no_fraction {rest : Bytes} (ended : Ended rest) :
    fraction rest = some ([], rest) ∧ exponent rest = some (0, rest) := by
  cases rest with
  | nil => exact ⟨rfl, rfl⟩
  | cons x tail =>
      rcases ended x rfl with rfl | rfl | rfl <;> exact ⟨rfl, rfl⟩

private theorem unsignedNumber_decimalNat (n : Nat) {rest : Bytes} (ended : Ended rest) :
    unsignedNumber (decimalNat n ++ rest) = some ((n : ℚ), rest) := by
  obtain ⟨taken, dropped⟩ := takeWhile_numeral (decimalNat_digits n) ended
  obtain ⟨fraction_eq, exponent_eq⟩ := no_fraction ended
  have canonical : ¬ (decimalNat n = [] ∨
      ((decimalNat n).head? = some 48 ∧ (decimalNat n).length ≠ 1)) := by
    rintro (empty | ⟨zero, long⟩)
    · exact decimalNat_ne_nil n empty
    · rw [decimalNat_head zero] at long
      exact long rfl
  simp only [unsignedNumber, taken, dropped, if_neg canonical, fraction_eq, exponent_eq,
    Option.bind_eq_bind, Option.bind_some, List.append_nil, digitsValue_decimalNat,
    List.length_nil, Nat.cast_zero, sub_zero, zpow_zero, mul_one, Option.pure_def]

private theorem number_decimal (v : Int) {rest : Bytes} (ended : Ended rest) :
    number (decimal v ++ rest) = some ((v : ℚ), rest) := by
  cases v with
  | ofNat n =>
      obtain ⟨x, tail, shape⟩ := List.exists_cons_of_ne_nil (decimalNat_ne_nil n)
      have digit : isDigit x = true := decimalNat_digits n x (shape ▸ List.mem_cons_self)
      have notMinus : x ≠ 45 := by
        rintro rfl
        cases digit
      have read := unsignedNumber_decimalNat n ended
      simp only [decimal, shape, List.cons_append, number, if_neg notMinus] at read ⊢
      simpa using read
  | negSucc n =>
      have read := unsignedNumber_decimalNat (n + 1) ended
      simp only [decimal, List.cons_append, number, if_true, read, Option.map_some]
      simp [Int.cast_negSucc]

private theorem decimal_starts (v : Int) :
    ∃ x tail, decimal v = x :: tail ∧ isJsonSpace x = false ∧ x ≠ 93 ∧ x ≠ quote ∧ x ≠ 123 ∧
      x ≠ 91 ∧ (x = 45 ∨ isDigit x = true) := by
  obtain ⟨x, tail, shape⟩ := List.exists_cons_of_ne_nil (decimal_ne_nil v)
  have kind := decimal_chars v x (shape ▸ List.mem_cons_self)
  refine ⟨x, tail, shape, ?_, ?_, ?_, ?_, ?_, kind.symm⟩
  · rcases kind with digit | rfl
    · cases space : isJsonSpace x with
      | false => rfl
      | true =>
          simp only [isJsonSpace, Bool.or_eq_true, beq_iff_eq] at space
          rcases space with ((rfl | rfl) | rfl) | rfl <;> cases digit
    · rfl
  all_goals
    rintro rfl
    rcases kind with digit | minus
    · cases digit
    · cases minus

theorem reads_decimal (v : Int) : Reads d (decimal v) (.number (d.round v)) where
  starts := by
    obtain ⟨x, tail, shape, solid, bracket, _⟩ := decimal_starts v
    exact ⟨x, tail, shape, solid, bracket⟩
  parses := by
    intro fuel rest enough ended
    obtain ⟨n, rfl⟩ : ∃ n, fuel = n + 1 := ⟨fuel - 1, by omega⟩
    obtain ⟨x, tail, shape, solid, _, notQuote, notBrace, notBracket, kind⟩ := decimal_starts v
    have read := number_decimal v ended
    rw [shape, List.cons_append] at read ⊢
    simp [parseValue, solid, notQuote, notBrace, notBracket, kind, read]

theorem reads_bool (b : Bool) :
    Reads d (if b then ascii "true" else ascii "false") (.bool b) where
  starts := by cases b <;> exact ⟨_, _, rfl, rfl, by decide⟩
  parses := by
    intro fuel rest enough _
    obtain ⟨n, rfl⟩ : ∃ n, fuel = n + 1 := ⟨fuel - 1, by omega⟩
    cases b <;> rfl

private theorem parseItems_reads {texts : List Bytes} {vs : List JsonValue}
    (reads : List.Forall₂ (Reads d) texts vs) (nonempty : texts ≠ []) (fuel : Nat)
    (enough : (commaSeparated texts).length + 1 < fuel) (rest : Bytes) :
    parseItems d fuel (commaSeparated texts ++ 93 :: rest) = some (vs, rest) := by
  induction reads generalizing fuel with
  | nil => exact absurd rfl nonempty
  | @cons text v texts vs read reads ih =>
      obtain ⟨n, rfl⟩ : ∃ n, fuel = n + 1 := ⟨fuel - 1, by omega⟩
      cases texts with
      | nil =>
          cases reads
          rw [commaSeparated] at enough ⊢
          rw [parseItems, read.parses n _ (by omega) (ended_cons (.inr (.inl rfl)))]
          simp [expect_other (c := 44) (x := 93) rfl (by decide),
            expect_self (c := 93) rfl]
      | cons next texts =>
          rw [commaSeparated_cons, List.append_assoc, List.cons_append]
          simp only [commaSeparated_cons, List.length_append, List.length_cons] at enough
          have later := ih (by simp) n (by omega)
          rw [parseItems, read.parses n _ (by omega) (ended_cons (.inl rfl))]
          simp [expect_self (c := 44) rfl, later]

theorem reads_array {texts : List Bytes} {vs : List JsonValue}
    (reads : List.Forall₂ (Reads d) texts vs) : Reads d (arrayText texts) (.array vs) where
  starts := ⟨91, _, rfl, rfl, by decide⟩
  parses := by
    intro fuel rest enough _
    obtain ⟨n, rfl⟩ : ∃ n, fuel = n + 1 := ⟨fuel - 1, by omega⟩
    simp only [arrayText, List.length_cons, List.length_append, List.length_nil] at enough
    have shape : arrayText texts ++ rest = 91 :: (commaSeparated texts ++ 93 :: rest) := by
      simp [arrayText]
    have solid : isJsonSpace 91 = false := rfl
    rw [shape]
    cases reads with
    | nil => simp [parseValue, solid, commaSeparated, expect_self (c := 93) rfl, quote]
    | @cons text v texts vs read reads =>
        have items := parseItems_reads (.cons read reads) (by simp) n (by omega) rest
        have opens : expect 93 (commaSeparated (text :: texts) ++ 93 :: rest) = none := by
          obtain ⟨x, tail, start, solid, bracket⟩ := read.starts
          cases texts <;> simp [commaSeparated, start, expect_other solid bracket]
        simp [parseValue, solid, opens, items, quote]

/-- The body of a quoted name is read back as the key. -/
def NameReads (d : Dialect) (body key : Bytes) : Prop :=
  ∀ fuel rest, body.length < fuel → stringBody d fuel (body ++ quote :: rest) = some (key, rest)

theorem nameReads_plain {name : Bytes} (plain : ∀ b ∈ name, Plain d b) :
    NameReads d name name := fun _ rest enough => stringBody_plain plain enough rest

theorem parseMembers_entry {name key text : Bytes} {v : JsonValue}
    (named : NameReads d name key) (read : Reads d text v) {fuel : Nat}
    (enough : text.length < fuel) {rest : Bytes} (ended : Ended rest) :
    parseMembers d (fuel + 1) (memberText (name, text) ++ rest) =
      match expect 44 rest with
      | some rest => (parseMembers d fuel rest).map fun p => ((key, v) :: p.1, p.2)
      | none => (expect 125 rest).map fun rest => ([(key, v)], rest) := by
  have shape : memberText (name, text) ++ rest =
      quote :: (name ++ quote :: (58 :: (text ++ rest))) := by simp [memberText, quoted]
  have nameRead := named ((name ++ quote :: (58 :: (text ++ rest))).length + 1)
    (58 :: (text ++ rest)) (by simp)
  have colon : expect 58 (58 :: (text ++ rest)) = some (text ++ rest) := expect_self rfl _
  rw [shape, parseMembers, expect_self rfl]
  simp only [Option.bind_eq_bind, Option.bind_some, nameRead, colon]
  rw [read.parses fuel rest enough ended]
  rfl

theorem parseMembers_member {name text : Bytes} {v : JsonValue}
    (plain : ∀ b ∈ name, Plain d b) (read : Reads d text v) {fuel : Nat}
    (enough : text.length < fuel) {rest : Bytes} (ended : Ended rest) :
    parseMembers d (fuel + 1) (memberText (name, text) ++ rest) =
      match expect 44 rest with
      | some rest => (parseMembers d fuel rest).map fun p => ((name, v) :: p.1, p.2)
      | none => (expect 125 rest).map fun rest => ([(name, v)], rest) :=
  parseMembers_entry (nameReads_plain plain) read enough ended

/-- A member whose name and text are read as a key and a value. -/
def EntryReads (d : Dialect) (member : Bytes × Bytes) (entry : Bytes × JsonValue) : Prop :=
  NameReads d member.1 entry.1 ∧ Reads d member.2 entry.2

/-- A member under a plain name whose text is read as a value. -/
def MemberReads (d : Dialect) (member : Bytes × Bytes) (entry : Bytes × JsonValue) : Prop :=
  entry.1 = member.1 ∧ (∀ b ∈ member.1, Plain d b) ∧ Reads d member.2 entry.2

private theorem parseMembers_reads {members : List (Bytes × Bytes)}
    {entries : List (Bytes × JsonValue)} (reads : List.Forall₂ (EntryReads d) members entries)
    (nonempty : members ≠ []) (fuel : Nat)
    (enough : (commaSeparated (members.map memberText)).length + 1 < fuel) (rest : Bytes) :
    parseMembers d fuel (commaSeparated (members.map memberText) ++ 125 :: rest) =
      some (entries, rest) := by
  induction reads generalizing fuel with
  | nil => exact absurd rfl nonempty
  | @cons member entry members entries read reads ih =>
      obtain ⟨n, rfl⟩ : ∃ n, fuel = n + 1 := ⟨fuel - 1, by omega⟩
      obtain ⟨name, text⟩ := member
      obtain ⟨key, v⟩ := entry
      obtain ⟨named, read⟩ := read
      have shorter : text.length ≤ (memberText (name, text)).length := by
        simp [memberText]
        omega
      cases members with
      | nil =>
          cases reads
          simp only [List.map_cons, List.map_nil, commaSeparated] at enough ⊢
          have fits : text.length < n := by omega
          rw [parseMembers_entry named read fits (ended_cons (.inr (.inr rfl)))]
          simp [expect_other (c := 44) (x := 125) rfl (by decide), expect_self (c := 125) rfl]
      | cons next members =>
          simp only [List.map_cons, commaSeparated_cons, List.length_append, List.length_cons]
            at enough
          have fits : text.length < n := by omega
          have later := ih (by simp) n (by rw [List.map_cons]; omega)
          simp only [List.map_cons, commaSeparated_cons, List.append_assoc, List.cons_append]
            at later ⊢
          rw [parseMembers_entry named read fits (ended_cons (.inl rfl))]
          simp [expect_self (c := 44) rfl, later]

theorem parseValue_brace {fuel : Nat} {body : Bytes} (opens : body.head? = some quote) :
    parseValue d (fuel + 1) (123 :: body) =
      (parseMembers d fuel body).map fun p => (.object p.1, p.2) := by
  have solid : isJsonSpace 123 = false := rfl
  obtain ⟨tail, rfl⟩ := List.head?_eq_some_iff.mp opens
  have notClosed : expect 125 (quote :: tail) = none := expect_other rfl (by decide) tail
  have other : (123 : UInt8) ≠ quote := by decide
  simp [parseValue, solid, notClosed, other]

private theorem opens_quote {members : List (Bytes × Bytes)} (nonempty : members ≠ [])
    (rest : Bytes) :
    (commaSeparated (members.map memberText) ++ rest).head? = some quote := by
  match members with
  | [] => exact absurd rfl nonempty
  | [member] => rfl
  | member :: next :: members => rfl

/-- A printed object is read back member by member. -/
theorem reads_entries {members : List (Bytes × Bytes)} {entries : List (Bytes × JsonValue)}
    (reads : List.Forall₂ (EntryReads d) members entries) :
    Reads d (objectText members) (.object entries) where
  starts := ⟨123, _, rfl, rfl, by decide⟩
  parses := by
    intro fuel rest enough _
    obtain ⟨n, rfl⟩ : ∃ n, fuel = n + 1 := ⟨fuel - 1, by omega⟩
    simp only [objectText, List.length_cons, List.length_append, List.length_nil] at enough
    have shape : objectText members ++ rest =
        123 :: (commaSeparated (members.map memberText) ++ 125 :: rest) := by simp [objectText]
    rw [shape]
    by_cases nonempty : members = []
    · subst nonempty
      cases reads
      have solid : isJsonSpace 123 = false := rfl
      simp [parseValue, solid, commaSeparated, expect_self (c := 125) rfl, quote]
    · rw [parseValue_brace (opens_quote nonempty _),
        parseMembers_reads reads nonempty n (by omega) rest]
      rfl

theorem reads_object {members : List (Bytes × Bytes)} {entries : List (Bytes × JsonValue)}
    (reads : List.Forall₂ (MemberReads d) members entries) :
    Reads d (objectText members) (.object entries) := by
  refine reads_entries (reads.imp ?_)
  rintro ⟨name, text⟩ ⟨key, v⟩ ⟨same, plain, read⟩
  obtain rfl : key = name := same
  exact ⟨nameReads_plain plain, read⟩

theorem Reads.parseText {text : Bytes} {v : JsonValue} (read : Reads d text v) :
    parseText d text = some (v, []) := by
  have parsed := read.parses (text.length + 1) [] (by omega) ended_nil
  rwa [List.append_nil] at parsed

end StreamDataPipeline.Foundations.JsonText
