/- The base64 codec of the shared library (lib/base64.c). -/

import StreamDataPipeline.Foundations.ByteString
import StreamDataPipeline.Foundations.Word

set_option autoImplicit false
set_option relaxedAutoImplicit false

namespace StreamDataPipeline.Lib.Base64

open Foundations.ByteString Foundations.Word

def b64Table : Bytes :=
  ascii "ABCDEFGHIJKLMNOPQRSTUVWXYZabcdefghijklmnopqrstuvwxyz0123456789+/"

def padChar : UInt8 := 61

/-- The table entry of the low six bits of a shifted triple. -/
def sextet (n : Nat) : UInt8 := b64Table.getD (n % 64) 0

/-- The four characters of one 24-bit triple. -/
def encodeTriple (a b c : UInt8) : Bytes :=
  let triple := a.toNat * 2 ^ 16 + b.toNat * 2 ^ 8 + c.toNat
  [sextet (triple / 2 ^ 18), sextet (triple / 2 ^ 12), sextet (triple / 2 ^ 6), sextet triple]

/-- The encoding loop; octets past the end are read as 0. -/
def encodeLoop : Bytes → Bytes
  | [] => []
  | [a] => encodeTriple a 0 0
  | [a, b] => encodeTriple a b 0
  | a :: b :: c :: rest => encodeTriple a b c ++ encodeLoop rest

/-- `none` is the return value -1; the terminating NUL of the result is not kept. -/
def base64Encode (src : Bytes) (outMax : Nat) : Option Bytes :=
  let outLen := 4 * ((src.length + 2) / 3)
  if outMax < outLen + 1 then none
  else
    let pads := (3 - src.length % 3) % 3
    some ((encodeLoop src).take (outLen - pads) ++ List.replicate pads padChar)

def b64Index (c : UInt8) : Option Nat :=
  if 65 ≤ c ∧ c ≤ 90 then some (c.toNat - 65)
  else if 97 ≤ c ∧ c ≤ 122 then some (c.toNat - 97 + 26)
  else if 48 ≤ c ∧ c ≤ 57 then some (c.toNat - 48 + 52)
  else if c = 43 then some 62
  else if c = 47 then some 63
  else none

/-- A padding character counts as 0 wherever it stands. -/
def charValue (c : UInt8) : Option Nat := if c = padChar then some 0 else b64Index c

/-- The three octets of four character values. -/
def decodeQuad (a b c d : Nat) : Bytes :=
  let triple := a * 2 ^ 18 + b * 2 ^ 12 + c * 2 ^ 6 + d
  [UInt8.ofNat (triple / 2 ^ 16 % 256), UInt8.ofNat (triple / 2 ^ 8 % 256),
    UInt8.ofNat (triple % 256)]

/-- The decoding loop before the cut to the output length. -/
def decodeLoop : Bytes → Option Bytes
  | a :: b :: c :: d :: rest => do
      let va ← charValue a
      let vb ← charValue b
      let vc ← charValue c
      let vd ← charValue d
      let tail ← decodeLoop rest
      pure (decodeQuad va vb vc vd ++ tail)
  | _ => some []

/-- The output length. `prev` is the byte in front of `src`: `src[len - 1]` reads it
when the source is empty. -/
def decodedLength (prev : UInt8) (src : Bytes) : Nat :=
  let full := src.length / 4 * 3
  let once := if src.getLastD prev = padChar then sizeDec full else full
  if 1 < src.length ∧ src.getD (src.length - 2) 0 = padChar then sizeDec once else once

/-- `none` is the return value -1. -/
def base64Decode (prev : UInt8) (src : Bytes) (outMax : Nat) : Option Bytes :=
  if src.length % 4 ≠ 0 then none
  else if outMax < decodedLength prev src then none
  else (decodeLoop src).map (List.take (decodedLength prev src))

/-- The encoder's output, three octets at a time with the padding in place. -/
def encodePadded : Bytes → Bytes
  | [] => []
  | [a] => (encodeTriple a 0 0).take 2 ++ [padChar, padChar]
  | [a, b] => (encodeTriple a b 0).take 3 ++ [padChar]
  | a :: b :: c :: rest => encodeTriple a b c ++ encodePadded rest

@[simp] theorem length_encodeTriple (a b c : UInt8) : (encodeTriple a b c).length = 4 := rfl

private theorem take_append_add {α : Type} (l r : List α) (n : Nat) :
    (l ++ r).take (l.length + n) = l ++ r.take n :=
  List.take_length_add_append n

theorem encodePadded_eq (src : Bytes) :
    (encodeLoop src).take (4 * ((src.length + 2) / 3) - (3 - src.length % 3) % 3) ++
      List.replicate ((3 - src.length % 3) % 3) padChar = encodePadded src := by
  induction src using encodePadded.induct with
  | case1 => rfl
  | case2 a => simp [encodeLoop, encodePadded, encodeTriple]
  | case3 a b => simp [encodeLoop, encodePadded, encodeTriple]
  | case4 a b c rest ih =>
      have pads : (3 - (rest.length + 1 + 1 + 1) % 3) % 3 = (3 - rest.length % 3) % 3 := by omega
      have bound : (3 - rest.length % 3) % 3 ≤ 4 * ((rest.length + 2) / 3) := by omega
      have cut : 4 * ((rest.length + 1 + 1 + 1 + 2) / 3) - (3 - rest.length % 3) % 3 =
          (encodeTriple a b c).length +
            (4 * ((rest.length + 2) / 3) - (3 - rest.length % 3) % 3) := by
        rw [length_encodeTriple]
        omega
      simp only [encodeLoop, encodePadded, List.length_cons, pads, cut]
      rw [take_append_add, List.append_assoc, ih]

theorem base64Encode_eq {src : Bytes} {outMax : Nat}
    (room : 4 * ((src.length + 2) / 3) + 1 ≤ outMax) :
    base64Encode src outMax = some (encodePadded src) := by
  simp only [base64Encode, encodePadded_eq]
  exact if_neg (by omega)

set_option maxRecDepth 4000 in
theorem charValue_sextet (n : Nat) : charValue (sextet n) = some (n % 64) := by
  have every : ∀ m < 64, charValue (b64Table.getD m 0) = some m := by decide
  exact every (n % 64) (Nat.mod_lt n (by decide))

theorem charValue_pad : charValue padChar = some 0 := rfl

private theorem sextets_join {t : Nat} (h : t < 2 ^ 24) :
    t / 2 ^ 18 % 64 * 2 ^ 18 + t / 2 ^ 12 % 64 * 2 ^ 12 + t / 2 ^ 6 % 64 * 2 ^ 6 + t % 64 = t := by
  have twelve : t / 2 ^ 12 = t / 2 ^ 6 / 2 ^ 6 := by omega
  have eighteen : t / 2 ^ 18 = t / 2 ^ 6 / 2 ^ 6 / 2 ^ 6 := by omega
  rw [eighteen, twelve]
  omega

theorem decodeQuad_triple (a b c : UInt8) :
    decodeQuad ((a.toNat * 2 ^ 16 + b.toNat * 2 ^ 8 + c.toNat) / 2 ^ 18 % 64)
      ((a.toNat * 2 ^ 16 + b.toNat * 2 ^ 8 + c.toNat) / 2 ^ 12 % 64)
      ((a.toNat * 2 ^ 16 + b.toNat * 2 ^ 8 + c.toNat) / 2 ^ 6 % 64)
      ((a.toNat * 2 ^ 16 + b.toNat * 2 ^ 8 + c.toNat) % 64) = [a, b, c] := by
  have ha := a.toNat_lt
  have hb := b.toNat_lt
  have hc := c.toNat_lt
  generalize ht : a.toNat * 2 ^ 16 + b.toNat * 2 ^ 8 + c.toNat = triple
  have joined := sextets_join (show triple < 2 ^ 24 by omega)
  have first : triple / 2 ^ 16 % 256 = a.toNat := by omega
  have second : triple / 2 ^ 8 % 256 = b.toNat := by omega
  have third : triple % 256 = c.toNat := by omega
  simp only [decodeQuad, joined, first, second, third, UInt8.ofNat_toNat]

private theorem decodeLoop_triple (a b c : UInt8) (rest : Bytes) :
    decodeLoop (encodeTriple a b c ++ rest) = (decodeLoop rest).map ([a, b, c] ++ ·) := by
  simp only [encodeTriple, List.cons_append, List.nil_append, decodeLoop, charValue_sextet,
    Option.bind_eq_bind, Option.bind_some, decodeQuad_triple]
  cases decodeLoop rest <;> rfl

private theorem decodeLoop_padded_one (a : UInt8) :
    decodeLoop ((encodeTriple a 0 0).take 2 ++ [padChar, padChar]) = some [a, 0, 0] := by
  have whole := decodeLoop_triple a 0 0 []
  have third :
      (a.toNat * 2 ^ 16 + (0 : UInt8).toNat * 2 ^ 8 + (0 : UInt8).toNat) / 2 ^ 6 % 64 = 0 := by
    have zero : (0 : UInt8).toNat = 0 := rfl
    omega
  have fourth : (a.toNat * 2 ^ 16 + (0 : UInt8).toNat * 2 ^ 8 + (0 : UInt8).toNat) % 64 = 0 := by
    have zero : (0 : UInt8).toNat = 0 := rfl
    omega
  simp only [encodeTriple, List.cons_append, List.nil_append, decodeLoop, charValue_sextet,
    Option.bind_eq_bind, Option.bind_some, third, fourth] at whole
  simpa [encodeTriple, decodeLoop, charValue_sextet, charValue_pad] using whole

private theorem decodeLoop_padded_two (a b : UInt8) :
    decodeLoop ((encodeTriple a b 0).take 3 ++ [padChar]) = some [a, b, 0] := by
  have whole := decodeLoop_triple a b 0 []
  have fourth : (a.toNat * 2 ^ 16 + b.toNat * 2 ^ 8 + (0 : UInt8).toNat) % 64 = 0 := by
    have zero : (0 : UInt8).toNat = 0 := rfl
    omega
  simp only [encodeTriple, List.cons_append, List.nil_append, decodeLoop, charValue_sextet,
    Option.bind_eq_bind, Option.bind_some, fourth] at whole
  simpa [encodeTriple, decodeLoop, charValue_sextet, charValue_pad] using whole

/-- The decoding loop gives the source back, followed by the octets of the padding. -/
theorem decodeLoop_encodePadded (src : Bytes) :
    decodeLoop (encodePadded src) =
      some (src ++ List.replicate ((3 - src.length % 3) % 3) 0) := by
  induction src using encodePadded.induct with
  | case1 => rfl
  | case2 a => exact decodeLoop_padded_one a
  | case3 a b => exact decodeLoop_padded_two a b
  | case4 a b c rest ih =>
      have pads : (3 - (rest.length + 1 + 1 + 1) % 3) % 3 = (3 - rest.length % 3) % 3 := by omega
      simp only [encodePadded, decodeLoop_triple, ih, List.length_cons, pads]
      simp

set_option maxRecDepth 4000 in
theorem sextet_ne_pad (n : Nat) : sextet n ≠ padChar := by
  have every : ∀ m < 64, b64Table.getD m 0 ≠ padChar := by decide
  exact every (n % 64) (Nat.mod_lt n (by decide))

theorem length_encodePadded (src : Bytes) :
    (encodePadded src).length = 4 * ((src.length + 2) / 3) := by
  induction src using encodePadded.induct with
  | case1 => rfl
  | case2 a => simp [encodePadded, encodeTriple]
  | case3 a b => simp [encodePadded, encodeTriple]
  | case4 a b c rest ih =>
      simp only [encodePadded, List.length_append, length_encodeTriple, ih, List.length_cons]
      omega

/-- The characters that the encoder writes. -/
def IsBase64Char (c : UInt8) : Prop := c ∈ b64Table ∨ c = padChar

instance : DecidablePred IsBase64Char := fun _ => instDecidableOr

theorem sextet_mem (n : Nat) : sextet n ∈ b64Table := by
  have short : n % 64 < b64Table.length := Nat.mod_lt n (by decide)
  rw [sextet, List.getD_eq_getElem?_getD, List.getElem?_eq_getElem short, Option.getD_some]
  exact List.getElem_mem short

private theorem sextet_isBase64Char (n : Nat) : IsBase64Char (sextet n) := .inl (sextet_mem n)

theorem encodePadded_chars (src : Bytes) : ∀ c ∈ encodePadded src, IsBase64Char c := by
  induction src using encodePadded.induct with
  | case1 => simp [encodePadded]
  | case2 a =>
      simp only [encodePadded, encodeTriple, List.take_succ_cons, List.take_zero]
      simpa using ⟨sextet_isBase64Char _, sextet_isBase64Char _, .inr rfl⟩
  | case3 a b =>
      simp only [encodePadded, encodeTriple, List.take_succ_cons, List.take_zero]
      simpa using
        ⟨sextet_isBase64Char _, sextet_isBase64Char _, sextet_isBase64Char _, .inr rfl⟩
  | case4 a b c rest ih =>
      intro x hx
      rcases List.mem_append.mp hx with here | later
      · simp only [encodeTriple, List.mem_cons, List.not_mem_nil, or_false] at here
        rcases here with rfl | rfl | rfl | rfl <;> exact sextet_isBase64Char _
      · exact ih x later

private theorem encodeTriple_shape (a b c : UInt8) :
    ∃ w x y z, encodeTriple a b c = [w, x, y, z] ∧ y ≠ padChar ∧ z ≠ padChar :=
  ⟨_, _, _, _, rfl, sextet_ne_pad _, sextet_ne_pad _⟩

private theorem encodePadded_last {src : Bytes} (nonempty : src ≠ []) :
    ∃ front w x y z, encodePadded src = front ++ [w, x, y, z] ∧
      (z = padChar ↔ src.length % 3 ≠ 0) ∧ (y = padChar ↔ src.length % 3 = 1) := by
  induction src using encodePadded.induct with
  | case1 => exact absurd rfl nonempty
  | case2 a =>
      obtain ⟨w, x, y, z, shape, _, _⟩ := encodeTriple_shape a 0 0
      exact ⟨[], w, x, padChar, padChar, by simp [encodePadded, shape], by simp, by simp⟩
  | case3 a b =>
      obtain ⟨w, x, y, z, shape, hy, _⟩ := encodeTriple_shape a b 0
      exact ⟨[], w, x, y, padChar, by simp [encodePadded, shape], by simp, by simp [hy]⟩
  | case4 a b c rest ih =>
      obtain ⟨w, x, y, z, shape, hy, hz⟩ := encodeTriple_shape a b c
      have same : (a :: b :: c :: rest).length % 3 = rest.length % 3 := by
        simp only [List.length_cons]
        omega
      rw [same, encodePadded, shape]
      by_cases last : rest = []
      · exact ⟨[], w, x, y, z, by simp [last, encodePadded], by simp [last, hz],
          by simp [last, hy]⟩
      · obtain ⟨front, w', x', y', z', shape', hz', hy'⟩ := ih last
        exact ⟨[w, x, y, z] ++ front, w', x', y', z', by simp [shape'], hz', hy'⟩

theorem decodedLength_encodePadded {prev : UInt8} (unpadded : prev ≠ padChar) (src : Bytes) :
    decodedLength prev (encodePadded src) = src.length := by
  by_cases empty : src = []
  · rw [empty]
    simp [decodedLength, encodePadded, unpadded]
  · obtain ⟨front, w, x, y, z, shape, hz, hy⟩ := encodePadded_last empty
    have length := length_encodePadded src
    have positive := List.length_pos_iff.mpr empty
    have last : (encodePadded src).getLastD prev = z := by simp [shape]
    have beforeLast : (encodePadded src).getD ((encodePadded src).length - 2) 0 = y := by
      simp [shape]
    simp only [decodedLength, last, beforeLast]
    rw [length]
    by_cases one : src.length % 3 = 1
    · rw [if_pos (hz.mpr (by omega)), if_pos ⟨by omega, hy.mpr one⟩]
      simp only [sizeDec]
      split_ifs <;> omega
    · rw [if_neg (show ¬ (_ ∧ y = padChar) from fun h => one (hy.mp h.2))]
      by_cases whole : src.length % 3 = 0
      · rw [if_neg (fun h => hz.mp h whole)]
        omega
      · rw [if_pos (hz.mpr whole)]
        simp only [sizeDec]
        split_ifs <;> omega

theorem base64Decode_encodePadded {prev : UInt8} (unpadded : prev ≠ padChar) {src : Bytes}
    {outMax : Nat} (room : src.length ≤ outMax) :
    base64Decode prev (encodePadded src) outMax = some src := by
  have groups : (encodePadded src).length % 4 = 0 := by
    rw [length_encodePadded]
    omega
  rw [base64Decode, decodedLength_encodePadded unpadded, if_neg (by omega), if_neg (by omega),
    decodeLoop_encodePadded, Option.map_some, List.take_left]

end StreamDataPipeline.Lib.Base64
