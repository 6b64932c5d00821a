/- Which texts the base64 decoder accepts, and which of them the encoder writes. -/

import StreamDataPipeline.Lib.Base64

set_option autoImplicit false
set_option relaxedAutoImplicit false

namespace StreamDataPipeline.Lib.Base64Canonical

open Foundations.ByteString Foundations.Word Base64

/-- Letters of the alphabet in front of `pads` padding characters. The bits of the last letter
that belong to no octet are zero. -/
structure PaddedLetters (letters : Bytes) (pads : Nat) : Prop where
  few : pads ≤ 2
  alphabet : ∀ c ∈ letters, c ∈ b64Table
  groups : (letters.length + pads) % 4 = 0
  spare : ∀ c ∈ letters.getLast?, ∀ v ∈ charValue c, v % 4 ^ pads = 0

def Canonical (s : Bytes) : Prop :=
  ∃ letters pads, s = letters ++ List.replicate pads padChar ∧ PaddedLetters letters pads

theorem exists_sextet {c : UInt8} (letter : c ∈ b64Table) : ∃ v < 64, c = sextet v := by
  obtain ⟨v, short, rfl⟩ := List.getElem_of_mem letter
  have small : v < 64 := short
  refine ⟨v, small, ?_⟩
  rw [sextet, Nat.mod_eq_of_lt small, List.getD_eq_getElem?_getD,
    List.getElem?_eq_getElem short, Option.getD_some]

section Triple

variable {v w x y : Nat}

private theorem octet (t : Nat) : (UInt8.ofNat (t % 256)).toNat = t % 256 := by
  rw [UInt8.toNat_ofNat']
  omega

private theorem octets_join {t : Nat} (small : t < 2 ^ 24) :
    t / 2 ^ 16 % 256 * 2 ^ 16 + t / 2 ^ 8 % 256 * 2 ^ 8 + t % 256 = t := by
  have sixteen : t / 2 ^ 16 = t / 2 ^ 8 / 2 ^ 8 := by omega
  rw [sixteen]
  omega

theorem encodeTriple_of_sextets (hv : v < 64) (hw : w < 64) (hx : x < 64) (hy : y < 64) :
    ∃ t, t = v * 2 ^ 18 + w * 2 ^ 12 + x * 2 ^ 6 + y ∧
      encodeTriple (UInt8.ofNat (t / 2 ^ 16 % 256)) (UInt8.ofNat (t / 2 ^ 8 % 256))
        (UInt8.ofNat (t % 256)) = [sextet v, sextet w, sextet x, sextet y] := by
  refine ⟨_, rfl, ?_⟩
  generalize whole : v * 2 ^ 18 + w * 2 ^ 12 + x * 2 ^ 6 + y = t
  have joined := octets_join (show t < 2 ^ 24 by omega)
  have first : sextet (t / 2 ^ 18) = sextet v := by
    rw [show t / 2 ^ 18 = v by omega]
  have second : sextet (t / 2 ^ 12) = sextet w := by
    rw [sextet, sextet, show t / 2 ^ 12 % 64 = w % 64 by omega]
  have third : sextet (t / 2 ^ 6) = sextet x := by
    rw [sextet, sextet, show t / 2 ^ 6 % 64 = x % 64 by omega]
  have fourth : sextet t = sextet y := by
    rw [sextet, sextet, show t % 64 = y % 64 by omega]
  simp only [encodeTriple, octet, joined, first, second, third, fourth]

theorem encodeTriple_of_two (hv : v < 64) (hw : w < 64) (spare : w % 16 = 0) :
    ∃ a, (encodeTriple a 0 0).take 2 = [sextet v, sextet w] := by
  obtain ⟨t, whole, shape⟩ := encodeTriple_of_sextets hv hw (show 0 < 64 by decide)
    (show 0 < 64 by decide)
  rw [show t / 2 ^ 8 % 256 = 0 by omega, show t % 256 = 0 by omega] at shape
  exact ⟨_, congrArg (List.take 2) shape⟩

theorem encodeTriple_of_three (hv : v < 64) (hw : w < 64) (hx : x < 64) (spare : x % 4 = 0) :
    ∃ a b, (encodeTriple a b 0).take 3 = [sextet v, sextet w, sextet x] := by
  obtain ⟨t, whole, shape⟩ := encodeTriple_of_sextets hv hw hx (show 0 < 64 by decide)
  rw [show t % 256 = 0 by omega] at shape
  exact ⟨_, _, congrArg (List.take 3) shape⟩

end Triple

private theorem paddedLetters_drop {a b c d : UInt8} {rest : Bytes} {pads : Nat}
    (padded : PaddedLetters (a :: b :: c :: d :: rest) pads) : PaddedLetters rest pads := by
  refine ⟨padded.few, fun x mem => padded.alphabet x (by simp [mem]), ?_, ?_⟩
  · have groups := padded.groups
    simp only [List.length_cons] at groups
    omega
  · intro x last
    apply padded.spare x
    have present : rest ≠ [] := by
      rintro rfl
      cases last
    obtain ⟨e, tail, rfl⟩ := List.exists_cons_of_ne_nil present
    simpa using last

theorem paddedLetters_encoded {letters : Bytes} {pads : Nat}
    (padded : PaddedLetters letters pads) :
    ∃ x, letters ++ List.replicate pads padChar = encodePadded x := by
  induction letters using decodeLoop.induct with
  | case1 a b c d rest ih =>
      obtain ⟨x, later⟩ := ih (paddedLetters_drop padded)
      obtain ⟨va, ha, rfl⟩ := exists_sextet (padded.alphabet a (by simp))
      obtain ⟨vb, hb, rfl⟩ := exists_sextet (padded.alphabet b (by simp))
      obtain ⟨vc, hc, rfl⟩ := exists_sextet (padded.alphabet c (by simp))
      obtain ⟨vd, hd, rfl⟩ := exists_sextet (padded.alphabet d (by simp))
      obtain ⟨t, -, group⟩ := encodeTriple_of_sextets ha hb hc hd
      refine ⟨UInt8.ofNat (t / 2 ^ 16 % 256) :: UInt8.ofNat (t / 2 ^ 8 % 256) ::
        UInt8.ofNat (t % 256) :: x, ?_⟩
      rw [encodePadded, group, ← later]
      rfl
  | case2 letters short =>
      have few := padded.few
      have groups := padded.groups
      rcases letters with _ | ⟨a, _ | ⟨b, _ | ⟨c, _ | ⟨d, rest⟩⟩⟩⟩
      · obtain rfl : pads = 0 := by
          rw [List.length_nil] at groups
          omega
        exact ⟨[], rfl⟩
      · rw [List.length_singleton] at groups
        omega
      · obtain rfl : pads = 2 := by
          simp only [List.length_cons, List.length_nil] at groups
          omega
        obtain ⟨va, ha, rfl⟩ := exists_sextet (padded.alphabet a (by simp))
        obtain ⟨vb, hb, rfl⟩ := exists_sextet (padded.alphabet b (by simp))
        have spare : vb % 16 = 0 := by
          have zero := padded.spare (sextet vb) rfl _ (charValue_sextet vb)
          rwa [Nat.mod_eq_of_lt hb] at zero
        obtain ⟨x, group⟩ := encodeTriple_of_two ha hb spare
        exact ⟨[x], by rw [encodePadded, group]; rfl⟩
      · obtain rfl : pads = 1 := by
          simp only [List.length_cons, List.length_nil] at groups
          omega
        obtain ⟨va, ha, rfl⟩ := exists_sextet (padded.alphabet a (by simp))
        obtain ⟨vb, hb, rfl⟩ := exists_sextet (padded.alphabet b (by simp))
        obtain ⟨vc, hc, rfl⟩ := exists_sextet (padded.alphabet c (by simp))
        have spare : vc % 4 = 0 := by
          have zero := padded.spare (sextet vc) rfl _ (charValue_sextet vc)
          rwa [Nat.mod_eq_of_lt hc] at zero
        obtain ⟨x, y, group⟩ := encodeTriple_of_three ha hb hc spare
        exact ⟨[x, y], by rw [encodePadded, group]; rfl⟩
      · exact absurd rfl (short a b c d rest)

private theorem paddedLetters_triple {letters : Bytes} {pads : Nat} (a b c : UInt8)
    (padded : PaddedLetters letters pads) :
    PaddedLetters (encodeTriple a b c ++ letters) pads := by
  refine ⟨padded.few, ?_, ?_, ?_⟩
  · rw [List.forall_mem_append]
    exact ⟨by simp [encodeTriple, sextet_mem], padded.alphabet⟩
  · have groups := padded.groups
    rw [List.length_append, length_encodeTriple]
    omega
  · intro x last
    cases letters with
    | nil =>
        have groups := padded.groups
        have few := padded.few
        obtain rfl : pads = 0 := by
          rw [List.length_nil] at groups
          omega
        intro n _
        exact Nat.mod_one n
    | cons y rest => exact padded.spare x (by simpa using last)

private theorem spare_of_last {letters : Bytes} {pads n : Nat}
    (last : letters.getLast? = some (sextet n)) (zero : n % 64 % 4 ^ pads = 0) :
    ∀ c ∈ letters.getLast?, ∀ v ∈ charValue c, v % 4 ^ pads = 0 := by
  intro c mem v value
  rw [last] at mem
  obtain rfl := Option.some.inj mem
  rw [charValue_sextet] at value
  exact Option.some.inj value ▸ zero

theorem encodePadded_canonical (x : Bytes) : Canonical (encodePadded x) := by
  induction x using encodePadded.induct with
  | case1 => exact ⟨[], 0, rfl, by decide, by simp, rfl, by simp⟩
  | case2 a =>
      refine ⟨_, 2, rfl, by decide, ?_, by simp, spare_of_last rfl ?_⟩
      · simp [encodeTriple, sextet_mem]
      · have zero : (0 : UInt8).toNat = 0 := rfl
        omega
  | case3 a b =>
      refine ⟨_, 1, rfl, by decide, ?_, by simp, spare_of_last rfl ?_⟩
      · simp [encodeTriple, sextet_mem]
      · have zero : (0 : UInt8).toNat = 0 := rfl
        omega
  | case4 a b c rest ih =>
      obtain ⟨letters, pads, shape, padded⟩ := ih
      refine ⟨encodeTriple a b c ++ letters, pads, ?_, paddedLetters_triple a b c padded⟩
      rw [encodePadded, shape, List.append_assoc]

/-- The encoder writes the canonical texts and no others. -/
theorem canonical_iff_encoded (s : Bytes) : Canonical s ↔ ∃ x, s = encodePadded x := by
  constructor
  · rintro ⟨letters, pads, rfl, padded⟩
    exact paddedLetters_encoded padded
  · rintro ⟨x, rfl⟩
    exact encodePadded_canonical x

private theorem mem_octets {c : UInt8} {start count : Nat} (fits : start + count ≤ 256) :
    c ∈ (List.range' start count).map UInt8.ofNat ↔
      start ≤ c.toNat ∧ c.toNat < start + count := by
  rw [List.mem_map]
  constructor
  · rintro ⟨n, mem, rfl⟩
    have inside := List.mem_range'_1.mp mem
    rw [UInt8.toNat_ofNat', Nat.mod_eq_of_lt (by omega)]
    exact inside
  · intro inside
    exact ⟨c.toNat, List.mem_range'_1.mpr inside, UInt8.ofNat_toNat⟩

private theorem b64Table_eq :
    b64Table = (List.range' 65 26).map UInt8.ofNat ++ (List.range' 97 26).map UInt8.ofNat ++
      (List.range' 48 10).map UInt8.ofNat ++ [43, 47] := by
  decide

theorem b64Index_isSome_iff (c : UInt8) : (b64Index c).isSome = true ↔ c ∈ b64Table := by
  have plus : c = 43 ↔ c.toNat = 43 := UInt8.toNat_inj.symm
  have slash : c = 47 ↔ c.toNat = 47 := UInt8.toNat_inj.symm
  rw [b64Table_eq]
  simp only [List.mem_append, List.mem_cons, List.not_mem_nil, or_false, plus, slash,
    mem_octets (show 65 + 26 ≤ 256 by decide), mem_octets (show 97 + 26 ≤ 256 by decide),
    mem_octets (show 48 + 10 ≤ 256 by decide)]
  simp only [b64Index, UInt8.le_iff_toNat_le, UInt8.reduceToNat, plus, slash]
  split_ifs <;>
    simp only [Option.isSome_some, Option.isSome_none, Bool.false_eq_true, true_iff, false_iff] <;>
    omega

theorem charValue_isSome_iff (c : UInt8) : (charValue c).isSome = true ↔ IsBase64Char c := by
  unfold charValue IsBase64Char
  split_ifs with pad
  · simp [pad]
  · rw [b64Index_isSome_iff, or_iff_left pad]

theorem eq_nil_of_short {s : Bytes}
    (short : ∀ (a b c d : UInt8) (rest : List UInt8), s = a :: b :: c :: d :: rest → False)
    (groups : s.length % 4 = 0) : s = [] := by
  rcases s with _ | ⟨a, _ | ⟨b, _ | ⟨c, _ | ⟨d, rest⟩⟩⟩⟩
  · rfl
  · cases groups
  · cases groups
  · cases groups
  · exact absurd rfl (short a b c d rest)

theorem decodeLoop_isSome_iff (s : Bytes) (groups : s.length % 4 = 0) :
    (decodeLoop s).isSome = true ↔ ∀ c ∈ s, IsBase64Char c := by
  induction s using decodeLoop.induct with
  | case1 a b c d rest ih =>
      have later := ih (by simp only [List.length_cons] at groups; omega)
      simp only [← charValue_isSome_iff] at later ⊢
      rw [List.forall_mem_cons, List.forall_mem_cons, List.forall_mem_cons,
        List.forall_mem_cons, ← later]
      simp only [decodeLoop, Option.bind_eq_bind]
      cases charValue a <;> cases charValue b <;> cases charValue c <;> cases charValue d <;>
        cases decodeLoop rest <;> simp
  | case2 s short =>
      obtain rfl := eq_nil_of_short short groups
      simp [decodeLoop]

theorem base64Decode_prev (prev other : UInt8) {s : Bytes} (nonempty : s ≠ []) (outMax : Nat) :
    base64Decode prev s outMax = base64Decode other s outMax := by
  have length : decodedLength prev s = decodedLength other s := by
    obtain ⟨c, rest, rfl⟩ := List.exists_cons_of_ne_nil nonempty
    simp only [decodedLength, List.getLastD_cons]
  simp only [base64Decode, length]

theorem decodedLength_le (prev : UInt8) {s : Bytes} (nonempty : s ≠ [])
    (groups : s.length % 4 = 0) : decodedLength prev s ≤ s.length / 4 * 3 := by
  have positive := List.length_pos_iff.mpr nonempty
  simp only [decodedLength, sizeDec]
  split_ifs <;> omega

/-- The decoder accepts every text of whole groups of letters and padding, wherever the padding
stands; encoding its result gives the text back exactly when the text is canonical, and the
canonical texts are those that the encoder writes. -/
theorem decode_accepts_iff (prev : UInt8) {s : Bytes} (nonempty : s ≠ []) {outMax : Nat}
    (room : s.length / 4 * 3 ≤ outMax) :
    ((base64Decode prev s outMax).isSome = true ↔
        s.length % 4 = 0 ∧ ∀ c ∈ s, IsBase64Char c) ∧
      (∀ x, base64Decode prev s outMax = some x →
        (base64Encode x (4 * ((x.length + 2) / 3) + 1) = some s ↔ Canonical s)) ∧
      (Canonical s ↔ ∃ x, base64Encode x (4 * ((x.length + 2) / 3) + 1) = some s) := by
  have encodes : ∀ x, base64Encode x (4 * ((x.length + 2) / 3) + 1) = some s ↔
      s = encodePadded x := by
    intro x
    rw [base64Encode_eq (le_refl _), Option.some.injEq, eq_comm]
  refine ⟨?_, ?_, ?_⟩
  · unfold base64Decode
    split_ifs with groups full
    · simp [groups]
    · have short := decodedLength_le prev nonempty (not_not.mp groups)
      omega
    · rw [Option.isSome_map, decodeLoop_isSome_iff s (not_not.mp groups)]
      simp [not_not.mp groups]
  · intro x decoded
    rw [encodes, canonical_iff_encoded]
    constructor
    · intro shape
      exact ⟨x, shape⟩
    · rintro ⟨y, rfl⟩
      have short : y.length ≤ outMax := by
        rw [length_encodePadded] at room
        omega
      rw [base64Decode_prev prev 0 nonempty, base64Decode_encodePadded (by decide) short] at decoded
      rw [Option.some.inj decoded]
  · simp only [encodes, canonical_iff_encoded]

theorem decode_accepts_padded_letter :
    (base64Decode 58 (ascii "Zg==") 3).isSome = true ∧ Canonical (ascii "Zg==") := by
  have room : (ascii "Zg==").length / 4 * 3 ≤ 3 := by decide
  have accepts := decode_accepts_iff 58 (s := ascii "Zg==") (by decide) room
  exact ⟨accepts.1.mpr (by decide), (accepts.2.1 (ascii "f") (by decide)).mp (by decide)⟩

/-- Padding is taken for zero bits at every place, and the bits under it may be anything. -/
theorem padding_not_canonical :
    base64Decode 58 (ascii "A===") 3 = some [0] ∧ base64Decode 58 (ascii "AB==") 3 = some [0] ∧
      base64Decode 58 (ascii "A=AA") 3 = some [0, 0, 0] ∧
      base64Encode [0] 5 = some (ascii "AA==") ∧
      base64Encode [0, 0, 0] 5 = some (ascii "AAAA") := by
  decide

end StreamDataPipeline.Lib.Base64Canonical
