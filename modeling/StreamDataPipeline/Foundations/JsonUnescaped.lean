/- What a parser reads from bytes that were put between quotes without escaping. -/

import StreamDataPipeline.Foundations.JsonText

/-!
Every escape decodes to fewer bytes than it is written with, and a quote ends the
string. So unescaped bytes are read back as themselves only if all of them are plain.
The one way in which a parser can run past the closing quote is a backslash in front
of it; then the string it reads ends with the comma behind that quote.
-/

set_option autoImplicit false
set_option relaxedAutoImplicit false

namespace StreamDataPipeline.Foundations.JsonUnescaped

open ByteString Json JsonText

variable {d : Dialect}

private theorem hexValue_quote : hexValue quote = none := rfl

private theorem hex4_before_quote {r more tail : Bytes} {u : Nat}
    (read : hex4 (r ++ quote :: more) = some (u, tail)) :
    ∃ digits r', r = digits ++ r' ∧ digits.length = 4 ∧ tail = r' ++ quote :: more := by
  -- with fewer than four bytes in front of it the quote is met as a digit
  rcases r with _ | ⟨a, _ | ⟨b, _ | ⟨c, _ | ⟨e, r'⟩⟩⟩⟩
  · rcases more with _ | ⟨_, _ | ⟨_, _ | ⟨_, more⟩⟩⟩ <;> simp [hex4, hexValue_quote] at read
  · rcases more with _ | ⟨_, _ | ⟨_, more⟩⟩ <;> simp [hex4, hexValue_quote] at read
  · rcases more with _ | ⟨_, more⟩ <;> simp [hex4, hexValue_quote] at read
  · simp [hex4, hexValue_quote] at read
  · simp only [List.cons_append, hex4, Option.bind_eq_bind, Option.bind_eq_some_iff,
      Option.pure_def, Option.some.injEq, Prod.mk.injEq] at read
    obtain ⟨_, _, _, _, _, _, _, _, _, rfl⟩ := read
    exact ⟨[a, b, c, e], r', rfl, rfl, rfl⟩

theorem utf8_length (p : Nat) : (utf8 p).length ≤ 4 := by
  unfold utf8
  split_ifs <;> simp

private theorem unicodeEscape_before_quote {r more y tail : Bytes}
    (read : unicodeEscape (r ++ quote :: more) = some (y, tail)) :
    ∃ used r', r = used ++ r' ∧ y.length ≤ used.length ∧ tail = r' ++ quote :: more := by
  simp only [unicodeEscape, Option.bind_eq_bind, Option.bind_eq_some_iff] at read
  obtain ⟨⟨unit, rest⟩, first, read⟩ := read
  obtain ⟨digits, r₁, rfl, four, rfl⟩ := hex4_before_quote first
  dsimp only at read
  split_ifs at read with single high
  · cases read
    exact ⟨digits, r₁, rfl, by rw [four]; exact utf8_length unit, rfl⟩
  · rcases r₁ with _ | ⟨x, _ | ⟨u, r₂⟩⟩
    · cases more with
      | nil => simp at read
      | cons _ _ => simp [show quote ≠ backslash by decide] at read
    · simp [show quote ≠ 117 by decide] at read
    · simp only [List.cons_append] at read
      split_ifs at read with marked
      simp only [Option.bind_eq_some_iff] at read
      obtain ⟨⟨low, rest⟩, second, read⟩ := read
      obtain ⟨digits', r', rfl, four', rfl⟩ := hex4_before_quote second
      dsimp only at read
      split_ifs at read with trailing
      simp only [Option.pure_def, Option.some.injEq, Prod.mk.injEq] at read
      obtain ⟨rfl, rfl⟩ := read
      refine ⟨digits ++ x :: u :: digits', r', by simp, ?_, rfl⟩
      have short := utf8_length (0x10000 + (unit - 0xD800) * 0x400 + (low - 0xDC00))
      simp only [List.length_append, List.length_cons, four, four']
      omega

private theorem escape_before_quote {r more y tail : Bytes}
    (read : escape (r ++ quote :: more) = some (y, tail)) :
    (r = [] ∧ y = [quote] ∧ tail = more) ∨
      ∃ used r', r = used ++ r' ∧ y.length ≤ used.length ∧ tail = r' ++ quote :: more := by
  cases r with
  | nil =>
      have closing : escape (quote :: more) = some ([quote], more) := rfl
      rw [List.nil_append, closing] at read
      cases read
      exact .inl ⟨rfl, rfl, rfl⟩
  | cons e r =>
      rw [List.cons_append, escape] at read
      split_ifs at read with unicode
      · obtain ⟨used, r', rfl, shorter, rfl⟩ := unicodeEscape_before_quote read
        exact .inr ⟨e :: used, r', rfl, by simp only [List.length_cons]; omega, rfl⟩
      · obtain ⟨b, _, equal⟩ := Option.map_eq_some_iff.mp read
        cases equal
        exact .inr ⟨[e], r, rfl, le_rfl, rfl⟩

private theorem readComma {fuel : Nat} {more read rest : Bytes}
    (parsed : stringBody d fuel (44 :: quote :: more) = some (read, rest)) : read = [44] := by
  have comma : (44 : UInt8) ≠ quote ∧ (44 : UInt8) ≠ backslash ∧ d.raw 44 = true :=
    ⟨by decide, by decide, d.raw_printable 44 (by decide)⟩
  rcases fuel with _ | _ | fuel
  · simp [stringBody] at parsed
  · simp [stringBody, comma] at parsed
  · simp only [stringBody, comma, if_false, if_true, Option.map_some, Option.some.injEq,
      Prod.mk.injEq] at parsed
    exact parsed.1.symm

/-- What is read from unescaped bytes in front of `","`: something shorter, the bytes
themselves, or a string that took in the closing quote and the comma. -/
theorem stringBody_unescaped {fuel : Nat} {s more read rest : Bytes}
    (parsed : stringBody d fuel (s ++ quote :: 44 :: quote :: more) = some (read, rest)) :
    read.length < s.length ∨ (read = s ∧ ∀ b ∈ s, Plain d b) ∨
      (s.getLast? = some backslash ∧ ∃ front, read = front ++ [quote, 44]) := by
  induction fuel generalizing s read rest with
  | zero => simp [stringBody] at parsed
  | succ fuel ih =>
      cases s with
      | nil =>
          simp only [List.nil_append, stringBody, if_true] at parsed
          cases parsed
          exact .inr (.inl ⟨rfl, by simp⟩)
      | cons x s =>
          rw [List.cons_append, stringBody] at parsed
          split_ifs at parsed with closes escapes raw
          · cases parsed
            exact .inl (by simp)
          · simp only [Option.bind_eq_bind, Option.bind_eq_some_iff] at parsed
            obtain ⟨⟨y, tail⟩, first, ⟨read', rest'⟩, later, equal⟩ := parsed
            cases equal
            rcases escape_before_quote first with ⟨rfl, rfl, rfl⟩ | ⟨used, r, rfl, shorter, rfl⟩
            · refine .inr (.inr ⟨by rw [escapes]; rfl, [], ?_⟩)
              rw [readComma later]
              rfl
            · rcases ih later with less | ⟨rfl, _⟩ | ⟨last, front, rfl⟩
              · refine .inl ?_
                simp only [List.length_append, List.length_cons]
                omega
              · refine .inl ?_
                simp only [List.length_append, List.length_cons]
                omega
              · exact .inr (.inr ⟨by simp [List.getLast?_cons, List.getLast?_append, last],
                  y ++ front, by simp⟩)
          · obtain ⟨⟨read', rest'⟩, later, equal⟩ := Option.map_eq_some_iff.mp parsed
            cases equal
            rcases ih later with less | ⟨rfl, plain⟩ | ⟨last, front, rfl⟩
            · exact .inl (by simpa using less)
            · exact .inr (.inl ⟨rfl, List.forall_mem_cons.mpr ⟨⟨closes, escapes, raw⟩, plain⟩⟩)
            · exact .inr (.inr ⟨by simp [List.getLast?_cons, last], x :: front, rfl⟩)

theorem plain_of_read_back {fuel : Nat} {s more rest : Bytes}
    (parsed : stringBody d fuel (s ++ quote :: 44 :: quote :: more) = some (s, rest)) :
    ∀ b ∈ s, Plain d b := by
  rcases stringBody_unescaped parsed with less | ⟨_, plain⟩ | ⟨last, front, equal⟩
  · exact absurd less (Nat.lt_irrefl _)
  · exact plain
  · rw [equal] at last
    simp [show (44 : UInt8) ≠ backslash by decide] at last

theorem parseMembers_unescaped {name body more rest : Bytes} (plain : ∀ b ∈ name, Plain d b)
    {fuel : Nat} {members : List (Bytes × JsonValue)}
    (parsed : parseMembers d fuel (memberText (name, quoted body) ++ 44 :: quote :: more) =
      some (members, rest)) :
    ∃ fuel' read after later,
      stringBody d fuel' (body ++ quote :: 44 :: quote :: more) = some (read, after) ∧
        members = (name, .string read) :: later := by
  have shape : memberText (name, quoted body) ++ 44 :: quote :: more =
      quote :: (name ++ quote :: 58 :: quote :: (body ++ quote :: 44 :: quote :: more)) := by
    simp [memberText, quoted]
  rcases fuel with _ | _ | fuel
  · simp [parseMembers] at parsed
  · simp [parseMembers, parseValue] at parsed
  · have nameRead := stringBody_plain plain
      (show name.length < (name ++ quote :: 58 :: quote ::
        (body ++ quote :: 44 :: quote :: more)).length + 1 by simp) (58 :: quote ::
        (body ++ quote :: 44 :: quote :: more))
    rw [shape, parseMembers, expect_self rfl] at parsed
    simp only [Option.bind_eq_bind, Option.bind_some, nameRead, expect_self (c := 58) rfl,
      parseValue_quote, Option.bind_eq_some_iff, Option.map_eq_some_iff] at parsed
    obtain ⟨_, ⟨⟨read, after⟩, string, rfl⟩, parsed⟩ := parsed
    dsimp only at parsed
    split at parsed
    · obtain ⟨p, _, equal⟩ := Option.map_eq_some_iff.mp parsed
      cases equal
      exact ⟨_, read, after, p.1, string, rfl⟩
    · obtain ⟨p, _, equal⟩ := Option.map_eq_some_iff.mp parsed
      cases equal
      exact ⟨_, read, after, [], string, rfl⟩

theorem parseMembers_behind {name text more rest : Bytes} {v : JsonValue}
    (plain : ∀ b ∈ name, Plain d b) (read : Reads d text v) {fuel : Nat}
    (enough : text.length < fuel) {members : List (Bytes × JsonValue)}
    (parsed : parseMembers d (fuel + 1) (memberText (name, text) ++ 44 :: more) =
      some (members, rest)) :
    ∃ later, parseMembers d fuel more = some (later, rest) ∧ members = (name, v) :: later := by
  rw [parseMembers_member plain read enough (ended_cons (.inl rfl)), expect_self rfl] at parsed
  obtain ⟨⟨later, after⟩, parsedLater, equal⟩ := Option.map_eq_some_iff.mp parsed
  cases equal
  exact ⟨later, parsedLater, rfl⟩

end StreamDataPipeline.Foundations.JsonUnescaped
