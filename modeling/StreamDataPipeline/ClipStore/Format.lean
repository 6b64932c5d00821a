/- The row format of the clip database (db_format). -/

import Mathlib.Algebra.Order.Ring.Nat
import StreamDataPipeline.Foundations.Decimal
import StreamDataPipeline.Foundations.StoredDeflate
import StreamDataPipeline.Lib.Base64

/-!
A row is `key TAB value TAB expire_at LF`. Values are stored compressed under the
mark `Z:`; the compression library is a parameter.
-/

set_option autoImplicit false
set_option relaxedAutoImplicit false

namespace StreamDataPipeline.ClipStore.Format

open Foundations Foundations.ByteString Foundations.Decimal Lib.Base64

structure Row where
  key : Bytes
  value : Bytes
  expireAt : Int
  deriving DecidableEq

/-- The compression library. `inflate` is the content that a compressed stream stands
for, or `none` where the stream is damaged. -/
structure Zlib where
  compress : Bytes → Option Bytes
  inflate : Bytes → Option Bytes
  inflate_compress : ∀ {v comp}, compress v = some comp → inflate comp = some v

/-- The codec as it treats short values that do not shrink. -/
def storedZlib : Zlib :=
  ⟨StoredDeflate.compressStored, StoredDeflate.inflateStored,
    StoredDeflate.inflateStored_compressStored⟩

inductive ZStatus
  | ok (out : Bytes)
  | bufError
  | dataError
  deriving DecidableEq

/-- `uncompress` into a buffer of `cap` bytes. -/
def Zlib.uncompress (z : Zlib) (cap : Nat) (comp : Bytes) : ZStatus :=
  match z.inflate comp with
  | none => .dataError
  | some out => if out.length ≤ cap then .ok out else .bufError

/-- Retry with a buffer twice the size while it is too small. The result is the last
buffer size and the content. -/
def uncompressLoop (z : Zlib) (comp : Bytes) : Nat → Nat → Option (Nat × Bytes)
  | 0, _ => none
  | fuel + 1, cap => match z.uncompress cap comp with
    | .ok out => some (cap, out)
    | .bufError => uncompressLoop z comp fuel (cap * 2)
    | .dataError => none

/-- Retries that are always enough, since each one adds a byte at least. -/
def uncompressFuel (z : Zlib) (comp : Bytes) : Nat := (z.inflate comp).elim 1 (·.length + 1)

/-- The buffer size that the retries end with, and the content. -/
def uncompressValue (z : Zlib) (comp : Bytes) : Option (Nat × Bytes) :=
  uncompressLoop z comp (uncompressFuel z comp) (comp.length * 4 + 1024)

def clipRowIsExpired (row : Row) (now : Int) : Bool :=
  decide (row.expireAt ≠ 0) && decide (row.expireAt ≤ now)

def clipRowIsTombstone (row : Row) : Bool := decide (row.value = [])

/-- `none` is the return value -1. The value is read as a C string. -/
def parseDbRow (z : Zlib) (line : Bytes) : Option Row := do
  let (key, rest) ← strchr tab line
  let (value, last) ← strchr tab rest
  let expireAt ← strtolWhole last
  match value with
  | 90 :: 58 :: b64 =>
      let comp ← base64Decode 58 b64 (b64.length + 1)
      let (_, out) ← uncompressValue z comp
      pure ⟨key, cstr out, expireAt⟩
  | _ => pure ⟨key, value, expireAt⟩

/-- The file after a row is printed at its end; `none` is the return value -1. -/
def appendDbRow (z : Zlib) (file key value : Bytes) (expireAt : Int) : Option Bytes :=
  if value = [] then
    some (file ++ (key ++ [tab] ++ [tab] ++ decimal expireAt ++ [lf]))
  else do
    let comp ← z.compress value
    let b64 ← base64Encode comp (4 * ((comp.length + 2) / 3) + 1)
    pure (file ++ (key ++ [tab] ++ (90 :: 58 :: b64) ++ [tab] ++ decimal expireAt ++ [lf]))

/-- What is printed between the two TABs. -/
def storedValue (z : Zlib) (value : Bytes) : Option Bytes :=
  if value = [] then some []
  else (z.compress value).map fun comp => 90 :: 58 :: encodePadded comp

/-- A printed row without its LF. -/
def rowText (key stored : Bytes) (expireAt : Int) : Bytes :=
  key ++ tab :: (stored ++ tab :: decimal expireAt)

/-- A byte that neither ends a field nor a line. -/
def FieldByte (b : UInt8) : Prop := b ≠ nul ∧ b ≠ tab ∧ b ≠ lf ∧ b ≠ cr

instance : DecidablePred FieldByte := fun _ => inferInstanceAs (Decidable (_ ∧ _))

theorem fieldBytes_iff (s : Bytes) :
    (∀ b ∈ s, FieldByte b) ↔ nul ∉ s ∧ tab ∉ s ∧ lf ∉ s ∧ cr ∉ s := by
  constructor
  · intro clean
    exact ⟨fun mem => (clean nul mem).1 rfl, fun mem => (clean tab mem).2.1 rfl,
      fun mem => (clean lf mem).2.2.1 rfl, fun mem => (clean cr mem).2.2.2 rfl⟩
  · rintro ⟨noNul, noTab, noLf, noCr⟩ b mem
    exact ⟨fun same => noNul (same ▸ mem), fun same => noTab (same ▸ mem),
      fun same => noLf (same ▸ mem), fun same => noCr (same ▸ mem)⟩

/-- A row that can be written and read back. -/
structure Storable (row : Row) : Prop where
  key_clean : ∀ b ∈ row.key, FieldByte b
  value_nul_free : nul ∉ row.value
  expireAt_long : IsLong row.expireAt

theorem appendDbRow_eq (z : Zlib) (file key value : Bytes) (expireAt : Int) :
    appendDbRow z file key value expireAt =
      (storedValue z value).map fun stored => file ++ (rowText key stored expireAt ++ [lf]) := by
  unfold appendDbRow storedValue
  split_ifs with empty
  · simp [rowText]
  · cases z.compress value with
    | none => rfl
    | some comp => simp [base64Encode_eq, rowText]

/-- The line that is printed for a row; `none` if the call fails before it prints. -/
def rowLine (z : Zlib) (row : Row) : Option Bytes :=
  (storedValue z row.value).map fun stored => rowText row.key stored row.expireAt ++ [lf]

theorem appendDbRow_line (z : Zlib) (file : Bytes) (row : Row) :
    appendDbRow z file row.key row.value row.expireAt = (rowLine z row).map (file ++ ·) := by
  rw [appendDbRow_eq, rowLine, Option.map_map]
  rfl

theorem doubled_size (cap j : Nat) : cap * 2 * 2 ^ j = cap * 2 ^ (j + 1) := by
  rw [Nat.mul_assoc, Nat.pow_succ']

/-- The retries find the content whenever there is one, with the first doubling of the buffer
that it fits. -/
theorem uncompressLoop_spec {z : Zlib} {comp out : Bytes} (content : z.inflate comp = some out)
    {fuel cap : Nat} (positive : 0 < cap) (enough : out.length < cap + fuel) (spare : 0 < fuel) :
    ∃ k, uncompressLoop z comp fuel cap = some (cap * 2 ^ k, out) ∧ out.length ≤ cap * 2 ^ k ∧
      ∀ j < k, cap * 2 ^ j < out.length := by
  induction fuel generalizing cap with
  | zero => omega
  | succ fuel ih =>
      simp only [uncompressLoop, Zlib.uncompress, content]
      by_cases fits : out.length ≤ cap
      · exact ⟨0, by simp [if_pos fits], by simpa using fits, by simp⟩
      · rw [if_neg fits]
        obtain ⟨k, found, room, first⟩ :=
          @ih (cap * 2) (by omega) (by omega) (by omega)
        rw [doubled_size] at found room
        refine ⟨k + 1, found, room, fun j less => ?_⟩
        cases j with
        | zero => simpa using fits
        | succ j => exact doubled_size cap j ▸ first j (by omega)

theorem uncompressValue_spec {z : Zlib} {comp out : Bytes} (content : z.inflate comp = some out) :
    ∃ k, uncompressValue z comp = some ((comp.length * 4 + 1024) * 2 ^ k, out) ∧
      out.length ≤ (comp.length * 4 + 1024) * 2 ^ k ∧
      ∀ j < k, (comp.length * 4 + 1024) * 2 ^ j < out.length := by
  refine uncompressLoop_spec content (by omega) ?_ ?_ <;>
    simp only [uncompressFuel, content, Option.elim_some] <;> omega

theorem uncompressValue_eq (z : Zlib) (comp : Bytes) :
    (uncompressValue z comp).map Prod.snd = z.inflate comp := by
  cases content : z.inflate comp with
  | none => simp [uncompressValue, uncompressFuel, uncompressLoop, Zlib.uncompress, content]
  | some out =>
      obtain ⟨k, found, -⟩ := uncompressValue_spec content
      rw [found, Option.map_some]

set_option maxRecDepth 4000 in
private theorem base64Char_fieldByte {c : UInt8} (h : IsBase64Char c) : FieldByte c := by
  have letters : ∀ x ∈ b64Table, FieldByte x := by decide
  rcases h with letter | rfl
  · exact letters c letter
  · decide

theorem storedValue_clean {z : Zlib} {value stored : Bytes}
    (h : storedValue z value = some stored) : ∀ b ∈ stored, FieldByte b := by
  unfold storedValue at h
  split_ifs at h with empty
  · cases h
    simp
  · obtain ⟨comp, _, rfl⟩ := Option.map_eq_some_iff.mp h
    intro b hb
    rcases List.mem_cons.mp hb with rfl | hb
    · decide
    rcases List.mem_cons.mp hb with rfl | hb
    · decide
    exact base64Char_fieldByte (encodePadded_chars comp b hb)

private theorem decimalChar_fieldByte {b : UInt8} (h : isDigit b = true ∨ b = 45) :
    FieldByte b := by
  rcases h with digit | rfl
  · refine ⟨?_, ?_, ?_, ?_⟩ <;> rintro rfl <;> exact absurd digit (by decide)
  · decide

theorem decimal_clean (v : Int) : ∀ b ∈ decimal v, FieldByte b :=
  fun b hb => decimalChar_fieldByte (decimal_chars v b hb)

private theorem tab_not_mem {s : Bytes} (clean : ∀ b ∈ s, FieldByte b) : tab ∉ s :=
  fun h => (clean tab h).2.1 rfl

/-- Key and value of a row that was written are read back, whatever the last field says. -/
theorem parseDbRow_fieldsText {z : Zlib} {row : Row} (storable : Storable row) {stored : Bytes}
    (written : storedValue z row.value = some stored) (last : Bytes) :
    parseDbRow z (row.key ++ tab :: (stored ++ tab :: last)) =
      (strtolWhole last).map fun expireAt => ⟨row.key, row.value, expireAt⟩ := by
  have first := strchr_append (tab_not_mem storable.key_clean) (stored ++ tab :: last)
  have second := strchr_append (tab_not_mem (storedValue_clean written)) last
  simp only [parseDbRow, first, second, Option.bind_eq_bind, Option.bind_some]
  cases strtolWhole last with
  | none => rfl
  | some expireAt =>
      rw [Option.bind_some, Option.map_some]
      unfold storedValue at written
      split_ifs at written with empty
      · cases written
        simp [← empty]
      · obtain ⟨comp, compressed, rfl⟩ := Option.map_eq_some_iff.mp written
        have room : comp.length ≤ (encodePadded comp).length + 1 := by
          rw [length_encodePadded]
          omega
        have content := uncompressValue_eq z comp
        rw [z.inflate_compress compressed] at content
        obtain ⟨⟨cap, out⟩, found, rfl⟩ := Option.map_eq_some_iff.mp content
        simp only [base64Decode_encodePadded (show (58 : UInt8) ≠ padChar by decide) room, found,
          Option.bind_some, cstr_of_nul_free storable.value_nul_free]
        rfl

theorem parseDbRow_rowText {z : Zlib} {row : Row} (storable : Storable row) {stored : Bytes}
    (written : storedValue z row.value = some stored) :
    parseDbRow z (rowText row.key stored row.expireAt) = some row := by
  rw [rowText, parseDbRow_fieldsText storable written, strtolWhole_decimal storable.expireAt_long]
  rfl

theorem parseDbRow_fields {z : Zlib} {line : Bytes} {row : Row}
    (parsed : parseDbRow z line = some row) :
    ∃ rest value last, strchr tab line = some (row.key, rest) ∧
      strchr tab rest = some (value, last) ∧ strtolWhole last = some row.expireAt ∧
      (row.value = value ∨ ∃ out, row.value = cstr out) := by
  unfold parseDbRow at parsed
  simp only [Option.bind_eq_bind, Option.bind_eq_some_iff] at parsed
  obtain ⟨⟨key, rest⟩, first, ⟨value, last⟩, second, expireAt, number, decoded⟩ := parsed
  refine ⟨rest, value, last, ?_⟩
  dsimp only at decoded
  split at decoded
  · simp only [Option.bind_eq_some_iff] at decoded
    obtain ⟨comp, _, ⟨cap, out⟩, _, equal⟩ := decoded
    cases equal
    exact ⟨first, second, number, .inr ⟨out, rfl⟩⟩
  · cases decoded
    exact ⟨first, second, number, .inl rfl⟩

theorem parseDbRow_storable {z : Zlib} {line : Bytes} {row : Row}
    (clean : ∀ b ∈ line, b ≠ nul ∧ b ≠ lf ∧ b ≠ cr) (parsed : parseDbRow z line = some row) :
    Storable row := by
  obtain ⟨rest, value, last, first, second, number, origin⟩ := parseDbRow_fields parsed
  obtain ⟨rfl, noTab⟩ := strchr_eq_some first
  obtain ⟨rfl, _⟩ := strchr_eq_some second
  constructor
  · intro b hb
    obtain ⟨hnul, hlf, hcr⟩ := clean b (by simp [hb])
    exact ⟨hnul, fun equal => noTab (equal ▸ hb), hlf, hcr⟩
  · rcases origin with same | ⟨out, same⟩
    · rw [same]
      exact fun mem => (clean nul (by simp [mem])).1 rfl
    · rw [same]
      exact nul_not_mem_cstr out
  · exact strtolWhole_long number

end StreamDataPipeline.ClipStore.Format
