/- The base64 codec on the memory of its buffers: every read and write is checked. -/

import StreamDataPipeline.Lib.Base64Canonical

set_option autoImplicit false
set_option relaxedAutoImplicit false

namespace StreamDataPipeline.Lib.Base64Memory

open Foundations.ByteString Foundations.Word Base64 Base64Canonical

/-- `out[j] = b`; `none` is a write outside the buffer. -/
def store (out : Bytes) (j : Nat) (b : UInt8) : Option Bytes := checkedWrite out j [b]

/-- Consecutive writes `out[j++] = b`. -/
def storeAll : Bytes → Nat → Bytes → Option Bytes
  | [], _, out => some out
  | b :: rest, j, out => (store out j b).bind (storeAll rest (j + 1))

/-- The encoding loop. The first argument is what is left of the source, whose reads the source
code guards with `i < len`. -/
def encodeGroups : Bytes → Nat → Bytes → Option Bytes
  | [], _, out => some out
  | [a], j, out => storeAll (encodeTriple a 0 0) j out
  | [a, b], j, out => storeAll (encodeTriple a b 0) j out
  | a :: b :: c :: rest, j, out =>
      (storeAll (encodeTriple a b c) j out).bind (encodeGroups rest (j + 4))

/-- The loop that writes padding over the end, with `left` rounds to go. -/
def padEnd (outLen : Nat) : Nat → Nat → Bytes → Option Bytes
  | 0, _, out => some out
  | left + 1, pad, out =>
      (store out (u64Sub (u64Sub outLen 1) pad) padChar).bind (padEnd outLen left (pad + 1))

/-- `base64_encode` into a buffer of `out.length` bytes. The outer `none` is an access outside the
buffer, the inner one the return value -1. -/
def base64EncodeInto (src out : Bytes) : Option (Option Bytes) :=
  let outLen := 4 * (u64Add src.length 2 / 3) % 2 ^ 64
  if out.length < u64Add outLen 1 then some none
  else do
    let groups ← encodeGroups src 0 out
    let padded ← padEnd outLen ((3 - src.length % 3) % 3) 0 groups
    let ended ← store padded outLen nul
    pure (some ended)

/-- `if (j < ol) out[j++] = b` on the buffer and `j`. -/
def storeBelow (ol : Nat) (b : UInt8) (cursor : Bytes × Nat) : Option (Bytes × Nat) :=
  if cursor.2 < ol then (store cursor.1 cursor.2 b).map fun out => (out, cursor.2 + 1)
  else some cursor

def storeAllBelow (ol : Nat) : Bytes → Bytes × Nat → Option (Bytes × Nat)
  | [], cursor => some cursor
  | b :: rest, cursor => (storeBelow ol b cursor).bind (storeAllBelow ol rest)

/-- The decoding loop from index `i` on. The outer `none` is an access outside a buffer or the
end of the fuel, the inner one the return value -1. -/
def decodeGroups (src : Bytes) (ol : Nat) : Nat → Nat → Bytes × Nat → Option (Option (Bytes × Nat))
  | 0, _, _ => none
  | fuel + 1, i, cursor =>
      if i < src.length then do
        let a ← src[i]?
        let b ← src[i + 1]?
        let c ← src[i + 2]?
        let d ← src[i + 3]?
        match charValue a, charValue b, charValue c, charValue d with
        | some va, some vb, some vc, some vd =>
            let moved ← storeAllBelow ol (decodeQuad va vb vc vd) cursor
            decodeGroups src ol fuel (i + 4) moved
        | _, _, _, _ => pure none
      else some (some cursor)

/-- `ol--` where `c` is padding; `none` is a wrap below zero. -/
def dropPadding (c : UInt8) (ol : Nat) : Option Nat :=
  if c = padChar then checkedSub ol 1 else some ol

/-- The computation of the output length, with its two reads at the end of the text. -/
def outputLength (src : Bytes) : Option Nat := do
  let last ← src[u64Sub src.length 1]?
  let once ← dropPadding last (src.length / 4 * 3)
  if 1 < src.length then
    let beforeLast ← src[src.length - 2]?
    dropPadding beforeLast once
  else pure once

/-- `base64_decode` into a buffer of `out.length` bytes, with the buffer and `out_len` it leaves
behind. The outer `none` is an access outside a buffer or a wrap of the output length, the inner
one the return value -1. -/
def base64DecodeInto (src out : Bytes) : Option (Option (Bytes × Nat)) :=
  if src.length % 4 ≠ 0 then some none
  else do
    let ol ← outputLength src
    if out.length < ol then pure none
    else
      let ended ← decodeGroups src ol (src.length / 4 + 1) 0 (out, 0)
      pure (ended.map fun cursor => (cursor.1, ol))

section Stores

variable (front : Bytes) {old : Bytes} (after : Bytes)

private theorem store_middle (b x : UInt8) (before rest : Bytes) :
    store (before ++ x :: rest) before.length b = some (before ++ b :: rest) := by
  have inside : before.length + [b].length ≤ (before ++ x :: rest).length := by simp
  have written := memwrite_append before [x] rest (show [b].length = [x].length from rfl)
  simp only [List.append_assoc, List.singleton_append] at written
  rw [store, checkedWrite_of_le inside, written]

private theorem storeAll_middle {bytes : Bytes} (size : old.length = bytes.length) :
    storeAll bytes front.length (front ++ old ++ after) = some (front ++ bytes ++ after) := by
  induction bytes generalizing front old with
  | nil =>
      obtain rfl := List.eq_nil_of_length_eq_zero size
      rfl
  | cons b rest ih =>
      obtain ⟨x, tail, rfl⟩ := List.exists_cons_of_length_eq_add_one size
      have written := store_middle b x front (tail ++ after)
      have shorter : tail.length = rest.length := by simpa using size
      have later := ih (front ++ [b]) shorter
      simp only [List.append_assoc, List.cons_append, List.nil_append, List.length_append,
        List.length_singleton] at later ⊢
      rw [storeAll, written, Option.bind_some, later]

theorem length_encodeLoop (src : Bytes) :
    (encodeLoop src).length = 4 * ((src.length + 2) / 3) := by
  induction src using encodeLoop.induct with
  | case1 => rfl
  | case2 a => simp [encodeLoop]
  | case3 a b => simp [encodeLoop]
  | case4 a b c rest ih =>
      simp only [encodeLoop, List.length_append, length_encodeTriple, ih, List.length_cons]
      omega

private theorem encodeGroups_middle {src : Bytes} (size : old.length = (encodeLoop src).length) :
    encodeGroups src front.length (front ++ old ++ after) =
      some (front ++ encodeLoop src ++ after) := by
  induction src using encodeLoop.induct generalizing front old with
  | case1 =>
      obtain rfl := List.eq_nil_of_length_eq_zero size
      rfl
  | case2 a => exact storeAll_middle front after size
  | case3 a b => exact storeAll_middle front after size
  | case4 a b c rest ih =>
      rw [encodeLoop, List.length_append, length_encodeTriple] at size
      have first : (old.take 4).length = (encodeTriple a b c).length := by
        rw [List.length_take, length_encodeTriple]
        omega
      have second : (old.drop 4).length = (encodeLoop rest).length := by
        rw [List.length_drop]
        omega
      have group := storeAll_middle front (old.drop 4 ++ after) first
      have later := ih (front ++ encodeTriple a b c) second
      rw [List.append_assoc, ← List.append_assoc (old.take 4), List.take_append_drop,
        ← List.append_assoc] at group
      rw [List.length_append, length_encodeTriple, List.append_assoc _ (old.drop 4)] at later
      rw [encodeGroups, group, Option.bind_some, later, encodeLoop, ← List.append_assoc front]

private theorem padEnd_middle {outLen left pad : Nat} {mid : Bytes}
    (short : outLen < 2 ^ 64) (whole : front.length + mid.length + pad = outLen)
    (size : mid.length = left) :
    padEnd outLen left pad (front ++ mid ++ List.replicate pad padChar ++ after) =
      some (front ++ List.replicate (left + pad) padChar ++ after) := by
  induction left generalizing mid pad with
  | zero =>
      obtain rfl := List.eq_nil_of_length_eq_zero size
      simp [padEnd]
  | succ left ih =>
      obtain rfl | ⟨init, x, rfl⟩ := List.eq_nil_or_concat mid
      · cases size
      simp only [List.concat_eq_append, List.length_append, List.length_singleton] at whole size ⊢
      have before : u64Sub outLen 1 = outLen - 1 := u64Sub_of_le (by omega) short
      have place : u64Sub (u64Sub outLen 1) pad = (front ++ init).length := by
        rw [before, u64Sub_of_le (by omega) (by omega), List.length_append]
        omega
      have written := store_middle padChar x (front ++ init) (List.replicate pad padChar ++ after)
      have wider : front.length + init.length + (pad + 1) = outLen := by omega
      have later := ih wider (Nat.succ.inj size)
      rw [List.replicate_succ, show left + (pad + 1) = left + 1 + pad by omega] at later
      simp only [List.append_assoc, List.cons_append, List.nil_append] at written later ⊢
      rw [padEnd, place, written, Option.bind_some, later]

end Stores

private theorem padEnd_letters (src after : Bytes) {outLen : Nat}
    (length : outLen = 4 * ((src.length + 2) / 3)) (short : outLen < 2 ^ 64) :
    padEnd outLen ((3 - src.length % 3) % 3) 0 (encodeLoop src ++ after) =
      some (encodePadded src ++ after) := by
  have letters := length_encodeLoop src
  have few : (3 - src.length % 3) % 3 ≤ outLen := by omega
  rw [← encodePadded_eq src]
  generalize (3 - src.length % 3) % 3 = pads at few ⊢
  have whole : ((encodeLoop src).take (outLen - pads)).length +
      ((encodeLoop src).drop (outLen - pads)).length + 0 = outLen := by
    simp only [List.length_take, List.length_drop]
    omega
  have size : ((encodeLoop src).drop (outLen - pads)).length = pads := by
    rw [List.length_drop]
    omega
  have written := padEnd_middle ((encodeLoop src).take (outLen - pads)) after short whole size
  rw [List.take_append_drop, List.replicate_zero, List.append_nil, Nat.add_zero] at written
  rw [← length, written]

theorem base64EncodeInto_eq {src out : Bytes} (room : 4 * ((src.length + 2) / 3) + 1 ≤ out.length)
    (size : out.length < 2 ^ 64) :
    base64EncodeInto src out = some (some (memwrite out 0 (encodePadded src ++ [nul]))) := by
  have rounded : u64Add src.length 2 = src.length + 2 := u64Add_of_lt (by omega)
  have outLen : 4 * ((src.length + 2) / 3) % 2 ^ 64 = (encodePadded src).length := by
    rw [length_encodePadded, Nat.mod_eq_of_lt (by omega)]
  have length := length_encodePadded src
  have needed : u64Add (encodePadded src).length 1 = (encodePadded src).length + 1 :=
    u64Add_of_lt (by omega)
  obtain ⟨x, after, split⟩ := List.exists_cons_of_length_pos
    (show 0 < (out.drop (encodePadded src).length).length by rw [List.length_drop]; omega)
  have parts : out = out.take (encodePadded src).length ++ x :: after := by
    rw [← split, List.take_append_drop]
  have front : (out.take (encodePadded src).length).length = (encodePadded src).length := by
    rw [List.length_take]
    omega
  have groups : encodeGroups src 0 out = some (encodeLoop src ++ x :: after) := by
    have written := encodeGroups_middle [] (x :: after)
      (front.trans (length.trans (length_encodeLoop src).symm))
    rwa [List.nil_append, List.nil_append, ← parts] at written
  have padded := padEnd_letters src (x :: after) length (by omega)
  have ended := store_middle nul x (encodePadded src) after
  have sameLength : (encodePadded src ++ [nul]).length =
      (out.take (encodePadded src).length ++ [x]).length := by
    rw [List.length_append, List.length_append, front]
    rfl
  have whole := memwrite_append [] (out.take (encodePadded src).length ++ [x]) after sameLength
  rw [List.nil_append, List.append_assoc, List.singleton_append, ← parts] at whole
  have left : memwrite out 0 (encodePadded src ++ [nul]) = encodePadded src ++ nul :: after :=
    whole.trans (by simp)
  simp only [base64EncodeInto, rounded, outLen, needed]
  rw [if_neg (by omega), groups, Option.bind_eq_bind, Option.bind_some, padded, Option.bind_some,
    ended, Option.bind_some, left]
  rfl

section Decode

variable {src out : Bytes} {ol : Nat}

/-- The buffer and `j` after the decoder has been through these bytes. -/
def reached (out : Bytes) (ol : Nat) (bytes : Bytes) : Bytes × Nat :=
  (memwrite out 0 (bytes.take ol), min ol bytes.length)

private theorem storeBelow_reached (room : ol ≤ out.length) (bytes : Bytes) (b : UInt8) :
    storeBelow ol b (reached out ol bytes) = some (reached out ol (bytes ++ [b])) := by
  by_cases below : bytes.length < ol
  · have all : bytes.take ol = bytes := List.take_of_length_le (by omega)
    have more : (bytes ++ [b]).take ol = bytes ++ [b] :=
      List.take_of_length_le (by rw [List.length_append, List.length_singleton]; omega)
    have place : min ol bytes.length = bytes.length := by omega
    have inside : bytes.length + [b].length ≤ (memwrite out 0 bytes).length := by
      rw [length_memwrite (by omega), List.length_singleton]
      omega
    have behind := memwrite_behind (show 0 ≤ out.length from Nat.zero_le _) bytes [b]
    rw [Nat.zero_add] at behind
    simp only [storeBelow, reached, all, more, place, store]
    rw [if_pos below, checkedWrite_of_le inside, behind, Option.map_some, List.length_append,
      List.length_singleton, Nat.min_eq_right (by omega)]
  · have full : min ol bytes.length = ol := by omega
    simp only [storeBelow, reached, full]
    rw [if_neg (lt_irrefl ol), List.take_append_of_le_length (by omega), List.length_append,
      Nat.min_eq_left (by omega)]

private theorem storeAllBelow_reached (room : ol ≤ out.length) (more bytes : Bytes) :
    storeAllBelow ol more (reached out ol bytes) = some (reached out ol (bytes ++ more)) := by
  induction more generalizing bytes with
  | nil => rw [storeAllBelow, List.append_nil]
  | cons b rest ih =>
      rw [storeAllBelow, storeBelow_reached room, Option.bind_some, ih, List.append_assoc]
      rfl

private theorem decodeGroups_drop (room : ol ≤ out.length) {rest : Bytes} {fuel i : Nat}
    (bytes : Bytes) (here : src.drop i = rest) (groups : rest.length % 4 = 0)
    (enough : rest.length / 4 < fuel) :
    decodeGroups src ol fuel i (reached out ol bytes) =
      some ((decodeLoop rest).map fun tail => reached out ol (bytes ++ tail)) := by
  obtain ⟨fuel, rfl⟩ := Nat.exists_eq_add_one_of_ne_zero (show fuel ≠ 0 by omega)
  induction rest using decodeLoop.induct generalizing fuel i bytes with
  | case1 a b c d rest ih =>
      have lengths : (src.drop i).length = rest.length + 4 := by rw [here]; rfl
      rw [List.length_drop] at lengths
      simp only [List.length_cons] at groups enough
      obtain ⟨fuel, rfl⟩ := Nat.exists_eq_add_one_of_ne_zero (show fuel ≠ 0 by omega)
      have next : src.drop (i + 4) = rest := by
        rw [← List.drop_drop, here]
        rfl
      have first : src[i + 0]? = some a := by rw [← List.getElem?_drop, here]; rfl
      rw [Nat.add_zero] at first
      have second : src[i + 1]? = some b := by rw [← List.getElem?_drop, here]; rfl
      have third : src[i + 2]? = some c := by rw [← List.getElem?_drop, here]; rfl
      have fourth : src[i + 3]? = some d := by rw [← List.getElem?_drop, here]; rfl
      rw [decodeGroups, if_pos (by omega), first, second, third, fourth]
      simp only [Option.bind_eq_bind, Option.bind_some, decodeLoop]
      cases charValue a with
      | none => rfl
      | some va =>
          cases charValue b with
          | none => rfl
          | some vb =>
              cases charValue c with
              | none => rfl
              | some vc =>
                  cases charValue d with
                  | none => rfl
                  | some vd =>
                      have later := ih (bytes ++ decodeQuad va vb vc vd) next (by omega) fuel
                        (by omega)
                      simp only [storeAllBelow_reached room, Option.bind_some, later]
                      cases decodeLoop rest with
                      | none => rfl
                      | some tail => simp
  | case2 rest short =>
      obtain rfl := eq_nil_of_short short groups
      have ended : ¬ i < src.length := by
        rw [List.drop_eq_nil_iff] at here
        omega
      rw [decodeGroups, if_neg ended]
      simp [decodeLoop]

private theorem dropPadding_eq (c : UInt8) {n : Nat} (present : 0 < n) :
    dropPadding c n = some (if c = padChar then sizeDec n else n) := by
  rw [dropPadding, sizeDec, if_neg (show n ≠ 0 by omega)]
  split_ifs
  · rw [checkedSub, if_pos (by omega)]
  · rfl

private theorem outputLength_eq (prev : UInt8) (groups : src.length % 4 = 0)
    (nonempty : src ≠ []) (size : src.length < 2 ^ 64) :
    outputLength src = some (decodedLength prev src) := by
  have positive := List.length_pos_iff.mpr nonempty
  have last : src[u64Sub src.length 1]? = some (src.getLastD prev) := by
    rw [u64Sub_of_le positive size, ← List.getLast?_eq_getElem?, List.getLastD_eq_getLast?,
      List.getLast?_eq_some_getLast nonempty, Option.getD_some]
  have beforeLast : src[src.length - 2]? = some (src.getD (src.length - 2) 0) := by
    rw [List.getD_eq_getElem?_getD, List.getElem?_eq_getElem (by omega), Option.getD_some]
  have left : 0 < if src.getLastD prev = padChar then sizeDec (src.length / 4 * 3)
      else src.length / 4 * 3 := by
    simp only [sizeDec]
    split_ifs <;> omega
  simp only [outputLength, last, beforeLast, Option.bind_eq_bind, Option.bind_some,
    dropPadding_eq _ (show 0 < src.length / 4 * 3 by omega), dropPadding_eq _ left,
    show 1 < src.length by omega, if_true, decodedLength, true_and]

/-- The decoder on memory, for every text that is not empty. -/
theorem base64DecodeInto_eq (out : Bytes) (prev : UInt8) (nonempty : src ≠ [])
    (size : src.length < 2 ^ 64) :
    base64DecodeInto src out = some ((base64Decode prev src out.length).map fun x =>
      (memwrite out 0 x, decodedLength prev src)) := by
  by_cases groups : src.length % 4 = 0
  · rw [base64DecodeInto, if_neg (by omega), outputLength_eq prev groups nonempty size,
      Option.bind_eq_bind, Option.bind_some, base64Decode,
      if_neg (show ¬ src.length % 4 ≠ 0 by omega)]
    by_cases full : out.length < decodedLength prev src
    · rw [if_pos full, if_pos full]
      rfl
    · have loop := decodeGroups_drop (not_lt.mp full) [] (List.drop_zero (l := src)) groups
        (Nat.lt_succ_self _)
      have start : reached out (decodedLength prev src) [] = (out, 0) := by
        simp [reached, memwrite]
      rw [start] at loop
      rw [if_neg full, if_neg full, ← Nat.succ_eq_add_one, loop]
      cases decodeLoop src with
      | none => rfl
      | some bytes => rfl
  · rw [base64DecodeInto, if_pos groups, base64Decode, if_pos groups]
    rfl

end Decode

/-- The decoder keeps inside its buffers exactly for the texts that are not empty. -/
theorem decode_inside_iff (src out : Bytes) (size : src.length < 2 ^ 64) :
    (base64DecodeInto src out).isSome = true ↔ src ≠ [] := by
  constructor
  · rintro inside rfl
    cases inside
  · intro nonempty
    rw [base64DecodeInto_eq out 0 nonempty size]
    rfl

theorem decode_inside_group : (base64DecodeInto (ascii "Zg==") [0, 0]).isSome = true :=
  (decode_inside_iff (ascii "Zg==") [0, 0] (by decide)).mpr (by decide)

/-- The text behind `Z:` may be empty, and then `src[len - 1]` stands in front of it. -/
theorem decode_empty_outside : base64DecodeInto [] [0] = none := by decide

/-- A decoder that is given an encoding as a C string gives the encoded bytes back. -/
theorem decode_undoes_encode {x text out : Bytes} (nonempty : x ≠ [])
    (room : 4 * ((x.length + 2) / 3) + 1 ≤ text.length) (size : text.length < 2 ^ 64)
    (outRoom : x.length ≤ out.length) :
    ∃ text', base64EncodeInto x text = some (some text') ∧
      text'.length = text.length ∧
      text'[4 * ((x.length + 2) / 3)]? = some nul ∧
      (cstr text').length = 4 * ((x.length + 2) / 3) ∧
      ∃ out', base64DecodeInto (cstr text') out = some (some (out', x.length)) ∧
        out'.length = out.length ∧ out'.take x.length = x := by
  have length := length_encodePadded x
  have clean : nul ∉ encodePadded x := by
    intro mem
    exact absurd (encodePadded_chars x nul mem) (by decide)
  have shape : memwrite text 0 (encodePadded x ++ [nul]) =
      encodePadded x ++ nul :: text.drop ((encodePadded x).length + 1) := by
    simp [memwrite]
  have seen : cstr (memwrite text 0 (encodePadded x ++ [nul])) = encodePadded x := by
    rw [shape, cstr_append_nul, cstr_of_nul_free clean]
  have present : encodePadded x ≠ [] := by
    have positive := List.length_pos_iff.mpr nonempty
    apply List.ne_nil_of_length_pos
    omega
  have decoded := base64DecodeInto_eq out 0 present (by omega)
  rw [base64Decode_encodePadded (by decide) outRoom, decodedLength_encodePadded (by decide)]
    at decoded
  refine ⟨_, base64EncodeInto_eq room size, length_memwrite ?_, ?_, ?_, memwrite out 0 x, ?_,
    length_memwrite (by omega), ?_⟩
  · rw [List.length_append, List.length_singleton]
    omega
  · rw [shape, ← length, List.getElem?_append_right (le_refl _), Nat.sub_self]
    rfl
  · rw [seen, length]
  · rw [seen, decoded]
    rfl
  · rw [memwrite, List.take_zero, List.nil_append, List.take_left' rfl]

theorem decode_undoes_encode_two :
    ∃ text', base64EncodeInto [0, 255] [1, 1, 1, 1, 1, 1] = some (some text') ∧
      text'.length = 6 ∧ text'[4]? = some nul ∧ (cstr text').length = 4 ∧
      ∃ out', base64DecodeInto (cstr text') [7, 7, 7] = some (some (out', 2)) ∧
        out'.length = 3 ∧ out'.take 2 = [0, 255] :=
  decode_undoes_encode (by decide) (by decide) (by decide) (by decide)

end StreamDataPipeline.Lib.Base64Memory
