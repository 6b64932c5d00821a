/- Decoding base64 as the standard library of Python does. -/

import StreamDataPipeline.Lib.Base64

/-!
Characters outside the alphabet are skipped. Decoding stops at a padding that completes a
group, and fails when the characters end within one.
-/

set_option autoImplicit false
set_option relaxedAutoImplicit false

namespace StreamDataPipeline.UdpStream.PythonBase64

open Foundations.ByteString Lib.Base64

/-- Where the decoder is in its group of four characters, with the bits left over from the last
one, and the padding characters seen since it. -/
structure Group where
  pos : Nat
  left : Nat
  pads : Nat
  deriving DecidableEq

/-- The next character of a group: its bytes, and where the decoder is behind it. -/
def Group.push (g : Group) (value : Nat) : Bytes × Group :=
  if g.pos = 0 then ([], ⟨1, value, 0⟩)
  else if g.pos = 1 then ([UInt8.ofNat (g.left * 4 + value / 16)], ⟨2, value % 16, 0⟩)
  else if g.pos = 2 then ([UInt8.ofNat (g.left * 16 + value / 4)], ⟨3, value % 4, 0⟩)
  else ([UInt8.ofNat (g.left * 64 + value)], ⟨0, 0, 0⟩)

def decodeFrom (g : Group) : Bytes → Option Bytes
  | [] => if g.pos = 0 then some [] else none
  | x :: xs =>
      if x = padChar then
        if 2 ≤ g.pos then
          if 4 ≤ g.pos + g.pads + 1 then some []
          else decodeFrom { g with pads := g.pads + 1 } xs
        else decodeFrom g xs
      else match b64Index x with
        | none => decodeFrom g xs
        | some value => (decodeFrom (g.push value).2 xs).map ((g.push value).1 ++ ·)

/-- `base64.b64decode(s)`; `none` is the exception for a group that is not complete, or for a
character that is not ASCII. -/
def b64decode (s : Bytes) : Option Bytes :=
  if s.all (· < 128) then decodeFrom ⟨0, 0, 0⟩ s else none

theorem b64Index_sextet (n : Nat) : b64Index (sextet n) = some (n % 64) := by
  have value := charValue_sextet n
  rwa [charValue, if_neg (sextet_ne_pad n)] at value

private theorem decodeFrom_sextet (g : Group) (n : Nat) (rest : Bytes) :
    decodeFrom g (sextet n :: rest) =
      (decodeFrom (g.push (n % 64)).2 rest).map ((g.push (n % 64)).1 ++ ·) := by
  rw [decodeFrom, if_neg (sextet_ne_pad n), b64Index_sextet]

private theorem sextets_to_octets (a b c : UInt8) :
    let t := a.toNat * 2 ^ 16 + b.toNat * 2 ^ 8 + c.toNat
    t / 2 ^ 18 % 64 * 4 + t / 2 ^ 12 % 64 / 16 = a.toNat ∧
      t / 2 ^ 12 % 64 % 16 * 16 + t / 2 ^ 6 % 64 / 4 = b.toNat ∧
      t / 2 ^ 6 % 64 % 4 * 64 + t % 64 = c.toNat := by
  have ha := a.toNat_lt
  have hb := b.toNat_lt
  have hc := c.toNat_lt
  dsimp only
  omega

private theorem decodeFrom_triple (a b c : UInt8) (rest : Bytes) :
    decodeFrom ⟨0, 0, 0⟩ (encodeTriple a b c ++ rest) =
      (decodeFrom ⟨0, 0, 0⟩ rest).map ([a, b, c] ++ ·) := by
  obtain ⟨first, second, third⟩ := sextets_to_octets a b c
  simp only [encodeTriple, List.cons_append, List.nil_append, decodeFrom_sextet, Group.push,
    if_true, OfNat.ofNat_ne_zero, OfNat.ofNat_ne_one, one_ne_zero, if_false, Option.map_map,
    first, second, third, UInt8.ofNat_toNat]
  rfl

private theorem decodeFrom_padded_one (a : UInt8) :
    decodeFrom ⟨0, 0, 0⟩ ((encodeTriple a 0 0).take 2 ++ [padChar, padChar]) = some [a] := by
  obtain ⟨first, -⟩ := sextets_to_octets a 0 0
  simp only [encodeTriple, List.take_succ_cons, List.take_zero, List.cons_append, List.nil_append,
    decodeFrom_sextet, Group.push, if_true, one_ne_zero, if_false, first, UInt8.ofNat_toNat]
  simp [decodeFrom]

private theorem decodeFrom_padded_two (a b : UInt8) :
    decodeFrom ⟨0, 0, 0⟩ ((encodeTriple a b 0).take 3 ++ [padChar]) = some [a, b] := by
  obtain ⟨first, second, -⟩ := sextets_to_octets a b 0
  simp only [encodeTriple, List.take_succ_cons, List.take_zero, List.cons_append, List.nil_append,
    decodeFrom_sextet, Group.push, if_true, OfNat.ofNat_ne_zero, OfNat.ofNat_ne_one, one_ne_zero,
    if_false, first, second, UInt8.ofNat_toNat]
  simp [decodeFrom]

set_option maxRecDepth 4000 in
private theorem ascii_of_base64Char {x : UInt8} (char : IsBase64Char x) : x < 128 := by
  have letters : ∀ y ∈ b64Table, y < 128 := by decide
  rcases char with letter | rfl
  · exact letters x letter
  · decide

/-- Python decodes what the encoder writes to the octets that were encoded. -/
theorem b64decode_encodePadded (src : Bytes) : b64decode (encodePadded src) = some src := by
  have allAscii : (encodePadded src).all (· < 128) = true := by
    rw [List.all_eq_true]
    exact fun x mem => decide_eq_true (ascii_of_base64Char (encodePadded_chars src x mem))
  rw [b64decode, if_pos allAscii]
  induction src using encodePadded.induct with
  | case1 => rfl
  | case2 a => exact decodeFrom_padded_one a
  | case3 a b => exact decodeFrom_padded_two a b
  | case4 a b c rest ih =>
      have later : (encodePadded rest).all (· < 128) = true := by
        rw [List.all_eq_true]
        exact fun x mem => decide_eq_true (ascii_of_base64Char (encodePadded_chars rest x mem))
      rw [encodePadded, decodeFrom_triple, ih later]
      rfl

end StreamDataPipeline.UdpStream.PythonBase64
